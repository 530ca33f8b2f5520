import Mathlib.Data.List.ProdSigma
import QuboReduction.Proofs.Doubles
import QuboReduction.Proofs.Terms
import QuboReduction.Proofs.WellFormed

/-!
# Magnitudes of coefficients

Collecting terms adds coefficients of the same key. When the terms of a list have coefficients of a
bounded magnitude, the coefficients of the collected sum are bounded by the magnitude times the
number of terms; when no key occurs twice, as in the sum of two sums, every coefficient is added to
once at most. An expression over `n` variables has no more than `n` terms of degree one and `n * n`
of degree two.

## Main definitions

* `QuboReduction.Terms.Every` — all coefficients have a property.
* `QuboReduction.Polynomial.AtMost`, `QuboReduction.Constraint.AtMost` — finite numbers of a bounded
  magnitude.

## Main results

* `QuboReduction.Terms.Every.add`, `QuboReduction.Terms.every_ofList` — coefficients of collected
  terms.
* `QuboReduction.Linear.Below.length_le`, `QuboReduction.Quadratic.Below.length_le` — numbers of
  terms.
* `QuboReduction.Polynomial.AtMost.addMultiple` — sums of polynomials.
-/

namespace QuboReduction

/-! ### Coefficients of collected terms -/

namespace Terms

variable {κ α : Type} [Ord κ] [Scalar α] {e f : Terms κ α} {P Q R : α → Prop}

/-- Every coefficient of a sum has a property. -/
def Every (e : Terms κ α) (P : α → Prop) : Prop := ∀ t ∈ e.toList, P t.2

instance [DecidablePred P] : Decidable (e.Every P) :=
  inferInstanceAs (Decidable (∀ t ∈ e.toList, P t.2))

theorem Every.mono (h : e.Every P) (hPQ : ∀ a, P a → Q a) : e.Every Q :=
  fun t ht => hPQ _ (h t ht)

theorem every_empty : (empty : Terms κ α).Every P := by simp [Every, empty]

theorem Every.scale {factor : α} (h : e.Every P) (hmul : ∀ a, P a → Q (a * factor)) :
    (e.scale factor).Every Q := by
  intro t ht
  obtain ⟨s, hs, rfl⟩ := List.mem_map.mp (List.mem_filter.mp ht).1
  exact hmul _ (h s hs)

theorem pairwise_keys_ne (e : Terms κ α) [Std.OrientedOrd κ] :
    e.toList.Pairwise fun s t => s.1 ≠ t.1 :=
  e.ascending.imp fun h heq => by simp [heq] at h

variable [Std.TransOrd κ] [Std.LawfulEqOrd κ]

omit [Std.TransOrd κ] in
/-- A term of a sum with one more term is an old one or the new one, or the new one is added to an
old one. -/
theorem mem_insertTerm_cases {key : κ} {coef : α} {terms : List (κ × α)} {t : κ × α}
    (h : t ∈ insertTerm key coef terms) :
    t ∈ terms ∨ t = (key, coef) ∨ ∃ c, (key, c) ∈ terms ∧ t = (key, c + coef) := by
  induction terms with
  | nil => exact (mem_consNonzero h).elim (fun h => Or.inr (Or.inl h.1)) Or.inl
  | cons s rest ih =>
    obtain ⟨k, c⟩ := s
    rw [insertTerm] at h
    split at h
    · exact (mem_consNonzero h).elim (fun h => Or.inr (Or.inl h.1)) Or.inl
    · rename_i hkey
      obtain rfl := Std.LawfulEqOrd.eq_of_compare hkey
      refine (mem_consNonzero h).elim (fun h => Or.inr (Or.inr ?_)) fun h => ?_
      · exact ⟨c, List.mem_cons_self, h.1⟩
      · exact Or.inl (List.mem_cons_of_mem _ h)
    · rcases List.mem_cons.mp h with rfl | h
      · exact Or.inl List.mem_cons_self
      · refine (ih h).imp (List.mem_cons_of_mem _) (Or.imp_right ?_)
        rintro ⟨c', hc', rfl⟩
        exact ⟨c', List.mem_cons_of_mem _ hc', rfl⟩

theorem Every.addTerm {key : κ} {coef : α} (h : e.Every P) (hPQ : ∀ a, P a → Q a) (hcoef : Q coef)
    (hadd : ∀ a, P a → Q (a + coef)) : (e.addTerm key coef).Every Q := by
  intro t ht
  rcases mem_insertTerm_cases ht with ht | rfl | ⟨c, hc, rfl⟩
  · exact hPQ _ (h t ht)
  · exact hcoef
  · exact hadd c (h (key, c) hc)

/-- When no key occurs twice in a list, every coefficient of a sum is changed once at most. -/
theorem mem_addTerms_cases {terms : List (κ × α)} {t : κ × α}
    (hkeys : terms.Pairwise fun s t => s.1 ≠ t.1) (h : t ∈ (e.addTerms terms).toList) :
    t ∈ e.toList ∨ t ∈ terms ∨
      ∃ s ∈ e.toList, ∃ u ∈ terms, s.1 = u.1 ∧ t = (u.1, s.2 + u.2) := by
  induction terms generalizing e with
  | nil => exact Or.inl h
  | cons u terms ih =>
    obtain ⟨hu, hkeys⟩ := List.pairwise_cons.mp hkeys
    rcases ih hkeys h with h | h | ⟨s, hs, w, hw, hsw, rfl⟩
    · rcases mem_insertTerm_cases h with h | rfl | ⟨c, hc, rfl⟩
      · exact Or.inl h
      · exact Or.inr (Or.inl List.mem_cons_self)
      · exact Or.inr (Or.inr ⟨_, hc, u, List.mem_cons_self, rfl, rfl⟩)
    · exact Or.inr (Or.inl (List.mem_cons_of_mem _ h))
    · -- the key is not that of the first term, so the coefficient is an old one
      refine Or.inr (Or.inr ⟨s, ?_, w, List.mem_cons_of_mem _ hw, hsw, rfl⟩)
      rcases mem_insertTerm_cases hs with hs | rfl | ⟨c, -, rfl⟩
      · exact hs
      · exact absurd hsw (hu w hw)
      · exact absurd hsw (hu w hw)

theorem Every.add (he : e.Every P) (hf : f.Every Q) (hPR : ∀ a, P a → R a) (hQR : ∀ a, Q a → R a)
    (hadd : ∀ a b, P a → Q b → R (a + b)) : (e.add f).Every R := by
  intro t ht
  rcases mem_addTerms_cases f.pairwise_keys_ne ht with ht | ht | ⟨s, hs, u, hu, -, rfl⟩
  · exact hPR _ (he t ht)
  · exact hQR _ (hf t ht)
  · exact hadd _ _ (he s hs) (hf u hu)

end Terms

/-! ### Numbers of terms -/

/-- An expression over `n` variables has at most `n` terms of degree one. -/
theorem Linear.Below.length_le {α : Type} [Scalar α] {e : Linear α} {n : Nat} (h : e.Below n) :
    e.toList.length ≤ n := by
  have hnodup : (e.toList.map fun t => t.1).Nodup := List.pairwise_map.mpr e.pairwise_keys_ne
  have hsubset : (e.toList.map fun t => t.1) ⊆ List.range n := by
    intro i hi
    obtain ⟨t, ht, rfl⟩ := List.mem_map.mp hi
    exact List.mem_range.mpr (h t ht)
  simpa using (hnodup.subperm hsubset).length_le

/-- An expression over `n` variables has at most `n * n` terms of degree two. -/
theorem Quadratic.Below.length_le {α : Type} [Scalar α] {e : Quadratic α} {n : Nat}
    (h : e.Below n) : e.toList.length ≤ n * n := by
  have hinjective : Function.Injective fun q : Pair => (q.low, q.high) := by
    rintro ⟨i, j, _⟩ ⟨k, l, _⟩ heq
    simpa using heq
  have hnodup : (e.toList.map fun t => (t.1.low, t.1.high)).Nodup :=
    List.pairwise_map.mpr (e.pairwise_keys_ne.imp fun hne heq => hne (hinjective heq))
  have hsubset : (e.toList.map fun t => (t.1.low, t.1.high)) ⊆
      List.range n ×ˢ List.range n := by
    intro i hi
    obtain ⟨t, ht, rfl⟩ := List.mem_map.mp hi
    have hhigh := h t ht
    exact List.mem_product.mpr ⟨List.mem_range.mpr (t.1.low_le_high.trans_lt hhigh),
      List.mem_range.mpr hhigh⟩
  have hle := (hnodup.subperm hsubset).length_le
  rwa [List.length_map, List.length_product, List.length_range] at hle

theorem Polynomial.Below.length_le {α : Type} [Scalar α] {f : Polynomial α} {n t : Nat}
    (h : f.Below n) (hn : n ≤ 2 ^ t) :
    f.linear.toList.length ≤ 2 ^ t ∧ f.quadratic.toList.length ≤ 2 ^ (2 * t) := by
  refine ⟨h.1.length_le.trans hn, ?_⟩
  rw [two_mul, pow_add]
  exact h.2.length_le.trans (Nat.mul_le_mul hn hn)

/-! ### Bounded coefficients -/

open Binary64 (AtMost)

namespace Terms

variable {κ : Type} [Ord κ] [Std.TransOrd κ] [Std.LawfulEqOrd κ]

/-- The coefficients of a collected list are sums of at most as many as there are terms. -/
theorem every_ofList {terms : List (κ × Float)} {k t n : Nat}
    (hterms : ∀ u ∈ terms, AtMost (2 ^ k) u.2) (hcount : terms.length ≤ 2 ^ t) (ht : t ≤ 53)
    (hkt : k + t ≤ n) (hn : n < 1024) : (ofList terms).Every (AtMost (2 ^ n)) := by
  have hstep : ∀ (m : Nat) (e : Terms κ Float), ∀ u ∈ terms, m < 2 ^ t →
      e.Every (AtMost (m * 2 ^ k)) →
        (e.addTerm u.1 u.2).Every (AtMost ((m + 1 : Nat) * 2 ^ k)) := by
    intro m e u hu hm he
    have hone : (2 : Rat) ^ k ≤ (m + 1 : Nat) * 2 ^ k :=
      le_mul_of_one_le_left (by positivity) (by exact_mod_cast Nat.le_add_left 1 m)
    have hmono : (m : Rat) * 2 ^ k ≤ (m + 1 : Nat) * 2 ^ k := by
      gcongr
      exact Nat.le_succ m
    refine he.addTerm (fun a ha => ha.mono hmono) ((hterms u hu).mono hone) fun a ha => ?_
    exact ha.add (hterms u hu) (.natCast_mul_two_pow hm ht (by omega))
      (by push_cast; rw [add_one_mul])
  have hbound : (ofList terms).Every (AtMost ((0 + terms.length : Nat) * 2 ^ k)) :=
    foldl_of_step (motive := fun m (e : Terms κ Float) => e.Every (AtMost (m * 2 ^ k)))
      every_empty hstep (by rwa [Nat.zero_add])
  refine hbound.mono fun a ha => ha.mono ?_
  rw [Nat.zero_add]
  exact Binary64.mul_two_pow_le hcount hkt

end Terms

theorem Quadratic.every_ofProducts {terms : List (Nat × Nat × Float)} {k t n : Nat}
    (hterms : ∀ u ∈ terms, AtMost (2 ^ k) u.2.2) (hcount : terms.length ≤ 2 ^ t) (ht : t ≤ 53)
    (hkt : k + t ≤ n) (hn : n < 1024) : (ofProducts terms).Every (AtMost (2 ^ n)) := by
  refine Terms.every_ofList (k := k) (t := t) (fun u hu => ?_) ?_ ht hkt hn
  · obtain ⟨v, hv, rfl⟩ := List.mem_map.mp hu
    exact hterms v hv
  · rwa [List.length_map]

/-! ### Bounded expressions -/

namespace Polynomial

/-- The numbers of a polynomial are finite and of magnitude at most `b`. -/
@[mk_iff]
structure AtMost (b : Rat) (f : Polynomial Float) : Prop where
  /-- The constant is bounded. -/
  constant : Binary64.AtMost b f.constant
  /-- The coefficients of the terms of degree one are bounded. -/
  linear : f.linear.Every (Binary64.AtMost b)
  /-- The coefficients of the terms of degree two are bounded. -/
  quadratic : f.quadratic.Every (Binary64.AtMost b)

variable {b c d : Rat} {f g : Polynomial Float}

instance : Decidable (f.AtMost b) := decidable_of_iff _ (atMost_iff b f).symm

theorem AtMost.mono (h : f.AtMost b) (hbc : b ≤ c) : f.AtMost c :=
  ⟨h.constant.mono hbc, h.linear.mono fun _ ha => ha.mono hbc,
    h.quadratic.mono fun _ ha => ha.mono hbc⟩

theorem AtMost.addMultiple {sign : Float} (hf : f.AtMost b) (hg : g.AtMost c)
    (hsign : Binary64.AtMost 1 sign) (hc : IsDouble c) (hd : IsDouble d) (h : b + c ≤ d) :
    (f.addMultiple sign g).AtMost d := by
  have hbd : b ≤ d := by linarith [(abs_nonneg _).trans hg.constant.abs_le]
  have hcd : c ≤ d := by linarith [(abs_nonneg _).trans hf.constant.abs_le]
  have hmul : ∀ a, Binary64.AtMost c a → Binary64.AtMost c (a * sign) := fun a ha =>
    ha.mul hsign hc (mul_one c).le
  have hadd : ∀ x y, Binary64.AtMost b x → Binary64.AtMost c y → Binary64.AtMost d (x + y) :=
    fun x y hx hy => hx.add hy hd h
  refine ⟨hadd _ _ hf.constant (hsign.mul hg.constant hc (one_mul c).le), ?_, ?_⟩
  · exact hf.linear.add (hg.linear.scale hmul) (fun _ ha => ha.mono hbd) (fun _ ha => ha.mono hcd)
      hadd
  · exact hf.quadratic.add (hg.quadratic.scale hmul) (fun _ ha => ha.mono hbd)
      (fun _ ha => ha.mono hcd) hadd

end Polynomial

/-- The coefficients of a constraint are finite and of magnitude at most `b`, and so is the
right-hand side with the bound `d`. -/
@[mk_iff]
structure Constraint.AtMost (b d : Rat) (c : Constraint Float) : Prop where
  /-- The coefficients of the terms of degree one are bounded. -/
  linear : c.linear.Every (Binary64.AtMost b)
  /-- The coefficients of the terms of degree two are bounded. -/
  quadratic : c.quadratic.Every (Binary64.AtMost b)
  /-- The right-hand side is bounded. -/
  rhs : Binary64.AtMost d c.rhs

instance (b d : Rat) (c : Constraint Float) : Decidable (c.AtMost b d) :=
  decidable_of_iff _ (c.atMost_iff b d).symm

theorem one_atMost : Binary64.AtMost 1 (1 : Float) :=
  ⟨Binary64.isFinite_one, by
    change |Binary64.value 1.0| ≤ 1
    rw [Binary64.value_one, abs_one]⟩

theorem sign_atMost (s : Sense) : Binary64.AtMost 1 (s.sign : Float) := by
  cases s with
  | minimize => exact one_atMost
  | maximize => exact one_atMost.neg

theorem Polynomial.AtMost.negate {b : Rat} {f : Polynomial Float} (h : f.AtMost b)
    (hb : IsDouble b) : f.negate.AtMost b := by
  have hmul : ∀ a, Binary64.AtMost b a → Binary64.AtMost b (a * (-1 : Float)) := fun a ha =>
    ha.mul one_atMost.neg hb (mul_one b).le
  exact ⟨h.constant.neg, h.linear.scale hmul, h.quadratic.scale hmul⟩

end QuboReduction

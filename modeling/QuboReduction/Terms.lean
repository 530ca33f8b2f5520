import QuboReduction.Scalar

/-!
# Sparse sums of terms

A sum of terms `c · m` over monomials `m`, each named by a key. Every key occurs at most once, keys
are strictly ascending and no coefficient is zero, so a sum is determined by its coefficients: there
is one value for each way of collecting terms.

## Main definitions

* `QuboReduction.Terms` — the terms in ascending order of their keys.
* `QuboReduction.Terms.coefficient` — the coefficient at a key, zero when there is no term.
* `QuboReduction.Terms.addTerm`, `QuboReduction.Terms.ofList` — collecting terms one after another.
* `QuboReduction.Terms.add`, `QuboReduction.Terms.scale` — sums and multiples.
* `QuboReduction.Terms.total` — a sum over the terms, in ascending order of their keys.
-/

namespace QuboReduction

/-- Terms with distinct ascending keys and coefficients that are not zero. -/
structure Terms (κ α : Type) [Ord κ] [Scalar α] where
  /-- The terms, key and coefficient. -/
  toList : List (κ × α)
  /-- The keys are strictly ascending. -/
  ascending : toList.Pairwise fun s t => compare s.1 t.1 = .lt
  /-- No coefficient is zero. -/
  nonzero : ∀ t ∈ toList, (t.2 == 0) = false

namespace Terms

variable {κ α : Type} [Ord κ] [Scalar α]

/-! ### Adding one term to a list -/

/-- A term in front of a list, left out when its coefficient is zero. -/
def consNonzero (key : κ) (coef : α) (terms : List (κ × α)) : List (κ × α) :=
  if coef == 0 then terms else (key, coef) :: terms

/-- A term added to a list with ascending keys: it goes to its place, or is added to the coefficient
that is there, and a coefficient that becomes zero goes away. -/
def insertTerm (key : κ) (coef : α) : List (κ × α) → List (κ × α)
  | [] => consNonzero key coef []
  | (k, c) :: rest =>
    match compare key k with
    | .lt => consNonzero key coef ((k, c) :: rest)
    | .eq => consNonzero k (c + coef) rest
    | .gt => (k, c) :: insertTerm key coef rest

omit [Ord κ] in
theorem mem_consNonzero {key : κ} {coef : α} {terms : List (κ × α)} {t : κ × α}
    (h : t ∈ consNonzero key coef terms) : (t = (key, coef) ∧ (coef == 0) = false) ∨ t ∈ terms := by
  unfold consNonzero at h
  split at h
  · exact Or.inr h
  · rename_i hc
    rcases List.mem_cons.mp h with h | h
    · exact Or.inl ⟨h, by simpa using hc⟩
    · exact Or.inr h

theorem mem_insertTerm {key : κ} {coef : α} {terms : List (κ × α)} {t : κ × α}
    (h : t ∈ insertTerm key coef terms) :
    (t.1 = key ∨ ∃ s ∈ terms, s.1 = t.1) ∧ ((t.2 == 0) = false ∨ t ∈ terms) := by
  induction terms with
  | nil =>
    rcases mem_consNonzero h with ⟨rfl, hc⟩ | h
    · exact ⟨Or.inl rfl, Or.inl hc⟩
    · simp at h
  | cons s rest ih =>
    obtain ⟨k, c⟩ := s
    unfold insertTerm at h
    split at h
    · rcases mem_consNonzero h with ⟨rfl, hc⟩ | h
      · exact ⟨Or.inl rfl, Or.inl hc⟩
      · exact ⟨Or.inr ⟨t, h, rfl⟩, Or.inr h⟩
    · rcases mem_consNonzero h with ⟨rfl, hc⟩ | h
      · exact ⟨Or.inr ⟨(k, c), List.mem_cons_self, rfl⟩, Or.inl hc⟩
      · exact ⟨Or.inr ⟨t, List.mem_cons_of_mem _ h, rfl⟩, Or.inr (List.mem_cons_of_mem _ h)⟩
    · rcases List.mem_cons.mp h with rfl | h
      · exact ⟨Or.inr ⟨(k, c), List.mem_cons_self, rfl⟩, Or.inr List.mem_cons_self⟩
      · obtain ⟨hk, hc⟩ := ih h
        refine ⟨hk.imp_right ?_, hc.imp_right (List.mem_cons_of_mem _)⟩
        rintro ⟨s, hs, he⟩
        exact ⟨s, List.mem_cons_of_mem _ hs, he⟩

theorem nonzero_insertTerm {key : κ} {coef : α} {terms : List (κ × α)}
    (h : ∀ t ∈ terms, (t.2 == 0) = false) :
    ∀ t ∈ insertTerm key coef terms, (t.2 == 0) = false :=
  fun t ht => (mem_insertTerm ht).2.elim id (h t)

theorem ascending_consNonzero {key : κ} {coef : α} {terms : List (κ × α)}
    (hb : ∀ t ∈ terms, compare key t.1 = .lt)
    (h : terms.Pairwise fun s t => compare s.1 t.1 = .lt) :
    (consNonzero key coef terms).Pairwise fun s t => compare s.1 t.1 = .lt := by
  unfold consNonzero
  split
  · exact h
  · exact List.pairwise_cons.mpr ⟨hb, h⟩

theorem ascending_insertTerm [Std.TransOrd κ] {key : κ} {coef : α} {terms : List (κ × α)}
    (h : terms.Pairwise fun s t => compare s.1 t.1 = .lt) :
    (insertTerm key coef terms).Pairwise fun s t => compare s.1 t.1 = .lt := by
  induction terms with
  | nil => exact ascending_consNonzero (by simp) List.Pairwise.nil
  | cons s rest ih =>
    obtain ⟨k, c⟩ := s
    obtain ⟨hk, hr⟩ := List.pairwise_cons.mp h
    unfold insertTerm
    split
    · rename_i hc
      refine ascending_consNonzero (fun t ht => ?_) h
      rcases List.mem_cons.mp ht with rfl | ht
      · exact hc
      · exact Std.TransCmp.lt_trans hc (hk t ht)
    · exact ascending_consNonzero hk hr
    · rename_i hc
      refine List.pairwise_cons.mpr ⟨fun t ht => ?_, ih hr⟩
      rcases (mem_insertTerm ht).1 with he | ⟨s, hs, he⟩
      · rw [he]
        exact Std.OrientedCmp.gt_iff_lt.mp hc
      · rw [← he]
        exact hk s hs

/-! ### Collecting terms -/

/-- The sum without terms. -/
def empty : Terms κ α := ⟨[], List.Pairwise.nil, by simp⟩

/-- A sum with one more term. -/
def addTerm [Std.TransOrd κ] (e : Terms κ α) (key : κ) (coef : α) : Terms κ α :=
  ⟨insertTerm key coef e.toList, ascending_insertTerm e.ascending, nonzero_insertTerm e.nonzero⟩

/-- A sum with more terms, added one after another. -/
def addTerms [Std.TransOrd κ] (e : Terms κ α) (terms : List (κ × α)) : Terms κ α :=
  terms.foldl (fun e t => e.addTerm t.1 t.2) e

/-- The sum of a list of terms, in which keys may repeat. -/
def ofList [Std.TransOrd κ] (terms : List (κ × α)) : Terms κ α := empty.addTerms terms

/-- The sum of two sums. -/
def add [Std.TransOrd κ] (e f : Terms κ α) : Terms κ α := e.addTerms f.toList

/-- A multiple of a sum; what the multiplication makes zero goes away. -/
def scale (e : Terms κ α) (factor : α) : Terms κ α where
  toList := (e.toList.map fun t => (t.1, t.2 * factor)).filter fun t => !(t.2 == 0)
  ascending := (List.pairwise_map.mpr e.ascending).filter _
  nonzero t ht := by simpa using (List.mem_filter.mp ht).2

/-! ### Reading a sum -/

/-- The coefficient at a key of a list of terms. -/
def coefficientIn (key : κ) : List (κ × α) → α
  | [] => 0
  | (k, c) :: rest => if compare key k = .eq then c else coefficientIn key rest

/-- The coefficient at a key. -/
def coefficient (e : Terms κ α) (key : κ) : α := coefficientIn key e.toList

/-- The keys of the terms, ascending. -/
def keys (e : Terms κ α) : List κ := e.toList.map fun t => t.1

/-- The coefficients of the terms, in the order of their keys. -/
def coefficients (e : Terms κ α) : List α := e.toList.map fun t => t.2

/-- The number of terms. -/
def size (e : Terms κ α) : Nat := e.toList.length

/-- Whether there are no terms. -/
def isEmpty (e : Terms κ α) : Bool := e.toList.isEmpty

/-- The sum of a function of the terms, in the order of their keys. -/
def total (e : Terms κ α) (value : κ → α → α) : α :=
  Scalar.sum (e.toList.map fun t => value t.1 t.2)

/-- The sum of the absolute coefficients. -/
def absSum (e : Terms κ α) : α := e.total fun _ c => Scalar.abs c

/-- Whether two sums have the same keys with equal coefficients. -/
def equal (e f : Terms κ α) : Bool :=
  e.size == f.size &&
    (e.toList.zip f.toList).all fun p => compare p.1.1 p.2.1 == .eq && p.1.2 == p.2.2

end Terms

end QuboReduction

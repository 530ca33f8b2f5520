import QuboReduction.Proofs.Closeness
import QuboReduction.Proofs.ReportWords
import QuboReduction.Proofs.ShortestText

/-!
# Expressions in reports

The report of an expression is a row of words: a constant or the coefficient and label of the first
term, and then sign, size and label of each term. Sign and size tell a legible coefficient, since
what is left out can only be a one, and the text of any other number has a digit. A constant is left
out only if it is zero. So the words tell the numbers in the expression.

## Main definitions

* `QuboReduction.Wording.ofTerms` — the words for a constant and terms.
* `QuboReduction.Legible` — what the coefficient and the label of a term have to be.

## Main results

* `QuboReduction.toList_expression` — the text of an expression is that of its words.
* `QuboReduction.Wording.ofTerms_inj` — the words tell the constant and the terms.
-/

namespace QuboReduction

open Binary64 (value reportText)

section Words

variable {α : Type} [Scalar α] [NumberText α]

/-! ### Words for numbers -/

/-- The coefficient of the first term, with a one left out. -/
def leadingSize (c : α) : List Char :=
  if Scalar.isClose c 1 then [] else if Scalar.isClose c (-1) then ['-']
  else (NumberText.plain c).toList

/-- The sign of a term behind others. -/
def followingSign (c : α) : Char := if c < 0 then '-' else '+'

/-- The size of the coefficient of a term behind others, with a one left out. -/
def followingSize (c : α) : List Char :=
  if Scalar.isClose (Scalar.abs c) 1 then [] else (NumberText.plain (Scalar.abs c)).toList

/-- The words for a term behind others. -/
def TermWording.ofTerm (t : α × Label) : TermWording :=
  ⟨followingSign t.1, followingSize t.1, t.2⟩

/-- The words for a constant and terms. -/
def Wording.ofTerms (constant : α) (terms : List (α × Label)) : Wording :=
  if Scalar.isNegligible constant then
    match terms with
    | [] => ⟨['0'], none, []⟩
    | t :: rest => ⟨leadingSize t.1, some t.2, rest.map TermWording.ofTerm⟩
  else ⟨(NumberText.plain constant).toList, none, terms.map TermWording.ofTerm⟩

namespace Wording

variable {constant : α}

theorem ofTerms_shown (h : Scalar.isNegligible constant = false) (terms : List (α × Label)) :
    ofTerms constant terms =
      ⟨(NumberText.plain constant).toList, none, terms.map TermWording.ofTerm⟩ := by
  simp [ofTerms, h]

theorem ofTerms_nil (h : Scalar.isNegligible constant = true) :
    ofTerms constant [] = ⟨['0'], none, []⟩ := by
  simp [ofTerms, h]

theorem ofTerms_cons (h : Scalar.isNegligible constant = true) (t : α × Label)
    (terms : List (α × Label)) :
    ofTerms constant (t :: terms) =
      ⟨leadingSize t.1, some t.2, terms.map TermWording.ofTerm⟩ := by
  simp [ofTerms, h]

end Wording

/-- The terms of an expression with the texts of their labels. -/
def labelled (terms : List (α × Label)) : List (α × String) :=
  terms.map fun t => (t.1, String.ofList t.2.text)

theorem intercalate_cons {β : Type} (separator first : List β) (rest : List (List β)) :
    separator.intercalate (first :: rest) = first ++ rest.flatMap fun l => separator ++ l := by
  induction rest generalizing first with
  | nil => simp [List.intercalate]
  | cons l rest ih =>
    have hrest := ih l
    simp only [List.intercalate, List.intersperse_cons_cons, List.flatten_cons] at hrest ⊢
    rw [hrest, List.flatMap_cons, List.append_assoc]

theorem toList_leadingTerm (c : α) (l : Label) :
    (leadingTerm c (String.ofList l.text)).toList = leadingSize c ++ l.text := by
  rw [leadingTerm, leadingSize]
  split
  · rw [String.toList_ofList, List.nil_append]
  · split
    · simp
    · rw [String.toList_append, String.toList_ofList]

theorem toList_followingTerm (t : α × Label) :
    " ".toList ++ (followingTerm t.1 (String.ofList t.2.text)).toList =
      (TermWording.ofTerm t).text := by
  rw [followingTerm, TermWording.text, TermWording.ofTerm]
  dsimp only
  rw [followingSign, followingSize]
  by_cases hsign : t.1 < 0 <;> by_cases hsize : Scalar.isClose (Scalar.abs t.1) 1 = true <;>
    simp [hsign, hsize]

theorem flatMap_followingTerm (terms : List (α × Label)) :
    (((labelled terms).map fun t => followingTerm t.1 t.2).map String.toList).flatMap
      (fun l => " ".toList ++ l) = (terms.map TermWording.ofTerm).flatMap TermWording.text := by
  rw [labelled, List.map_map, List.map_map, List.flatMap_map, List.flatMap_map]
  exact List.flatMap_congr fun t _ => toList_followingTerm t

/-- **The text of an expression** is that of its words. -/
theorem toList_expression (constant : α) (terms : List (α × Label)) :
    (" ".intercalate (expressionParts constant (labelled terms))).toList =
      (Wording.ofTerms constant terms).text := by
  rw [String.toList_intercalate]
  simp only [expressionParts]
  cases hsmall : Scalar.isNegligible constant with
  | false =>
    rw [Wording.ofTerms_shown hsmall, if_neg Bool.false_ne_true, List.map_cons, intercalate_cons,
      flatMap_followingTerm]
    rfl
  | true =>
    rw [if_pos rfl]
    cases terms with
    | nil =>
      rw [Wording.ofTerms_nil hsmall]
      rfl
    | cons t rest =>
      have hrest := flatMap_followingTerm rest
      rw [Wording.ofTerms_cons hsmall, labelled, List.map_cons]
      dsimp only
      rw [List.map_cons, intercalate_cons, toList_leadingTerm, List.append_assoc]
      exact congrArg (fun l => leadingSize t.1 ++ (t.2.text ++ l)) hrest

end Words

/-! ### Words for legible terms -/

variable {c d : Float} {t t' : Float × Label} {terms terms' : List (Float × Label)}

/-- What the coefficient and the label of a term have to be for the term to be told from its
text. -/
structure Legible (t : Float × Label) : Prop where
  /-- The coefficient is a finite number. -/
  isFinite : t.1.isFinite = true
  /-- It is a unit or far from units. -/
  isLegible : Binary64.IsLegible t.1
  /-- The names are identifiers. -/
  isNamed : t.2.IsNamed

theorem isNumeric_of_mem_reportText (hc : c.isFinite = true) {a : Char}
    (ha : a ∈ (reportText c).toList) : isNumeric a = true := by
  simp only [isNumeric, Bool.or_eq_true, beq_iff_eq, or_assoc]
  exact Binary64.mem_reportText hc ha

/-- Texts of finite numbers tell the numbers. -/
theorem value_eq_of_reportText_eq (hc : c.isFinite = true) (hd : d.isFinite = true)
    (h : (reportText c).toList = (reportText d).toList) : value c = value d :=
  (Binary64.beq_iff_value_eq hc hd).mp
    (Binary64.beq_of_reportText_eq hc hd (String.toList_inj.mp h))

/-- The text of a number is not that of a one that is left out. -/
theorem reportText_ne (hc : c.isFinite = true) :
    (reportText c).toList ≠ [] ∧ (reportText c).toList ≠ ['-'] := by
  obtain ⟨a, ha, hdigit⟩ := Binary64.exists_digit_reportText hc
  refine ⟨fun h => ?_, fun h => ?_⟩
  · simp [h] at ha
  · rw [h, List.mem_singleton] at ha
    rw [ha] at hdigit
    exact absurd hdigit (by decide)

theorem Legible.leadingSize_cases (ht : Legible t) :
    (value t.1 = 1 ∧ leadingSize t.1 = []) ∨ (value t.1 = -1 ∧ leadingSize t.1 = ['-']) ∨
      leadingSize t.1 = (reportText t.1).toList := by
  have hone : Scalar.isClose t.1 1 = true ↔ value t.1 = 1 :=
    ht.isLegible.isClose_one_iff ht.isFinite
  have hnegone : Scalar.isClose t.1 (-1) = true ↔ value t.1 = -1 :=
    ht.isLegible.isClose_neg_one_iff ht.isFinite
  rw [leadingSize]
  split
  · rename_i hclose
    exact Or.inl ⟨hone.mp hclose, rfl⟩
  · split
    · rename_i hclose
      exact Or.inr (Or.inl ⟨hnegone.mp hclose, rfl⟩)
    · exact Or.inr (Or.inr rfl)

theorem Legible.leadingSize_inj (ht : Legible t) (ht' : Legible t')
    (h : leadingSize t.1 = leadingSize t'.1) : value t.1 = value t'.1 := by
  obtain ⟨hne, hne'⟩ := reportText_ne ht.isFinite
  obtain ⟨hne₂, hne₂'⟩ := reportText_ne ht'.isFinite
  rcases ht.leadingSize_cases with ⟨hvalue, hsize⟩ | ⟨hvalue, hsize⟩ | hsize <;>
    rcases ht'.leadingSize_cases with ⟨hvalue', hsize'⟩ | ⟨hvalue', hsize'⟩ | hsize' <;>
    rw [hsize, hsize'] at h
  · rw [hvalue, hvalue']
  · contradiction
  · exact absurd h.symm hne₂
  · contradiction
  · rw [hvalue, hvalue']
  · exact absurd h.symm hne₂'
  · exact absurd h hne
  · exact absurd h hne'
  · exact value_eq_of_reportText_eq ht.isFinite ht'.isFinite h

theorem Legible.followingSize_cases (ht : Legible t) :
    (|value t.1| = 1 ∧ followingSize t.1 = []) ∨
      followingSize t.1 = (reportText (Float.abs t.1)).toList := by
  have hone : Scalar.isClose (Scalar.abs t.1) 1 = true ↔ |value t.1| = 1 :=
    ht.isLegible.isClose_abs_iff ht.isFinite
  rw [followingSize]
  split
  · rename_i hclose
    exact Or.inl ⟨hone.mp hclose, rfl⟩
  · exact Or.inr rfl

theorem Legible.followingSize_inj (ht : Legible t) (ht' : Legible t')
    (h : followingSize t.1 = followingSize t'.1) : |value t.1| = |value t'.1| := by
  obtain ⟨hfinite, habs⟩ := Binary64.value_abs ht.isFinite
  obtain ⟨hfinite', habs'⟩ := Binary64.value_abs ht'.isFinite
  rcases ht.followingSize_cases with ⟨hvalue, hsize⟩ | hsize <;>
    rcases ht'.followingSize_cases with ⟨hvalue', hsize'⟩ | hsize' <;> rw [hsize, hsize'] at h
  · rw [hvalue, hvalue']
  · exact absurd h.symm (reportText_ne hfinite').1
  · exact absurd h (reportText_ne hfinite).1
  · rw [← habs, ← habs', value_eq_of_reportText_eq hfinite hfinite' h]

theorem followingSign_eq (hc : c.isFinite = true) :
    followingSign c = if value c < 0 then '-' else '+' := by
  have hneg : c < 0 ↔ value c < 0 := by
    have hlt := Binary64.lt_iff_value_lt hc Binary64.isFinite_zero
    rwa [Binary64.value_zero] at hlt
  rw [followingSign]
  exact if_congr hneg rfl rfl

/-- **The words of a term** tell its coefficient and its label. -/
theorem Legible.ofTerm_inj (ht : Legible t) (ht' : Legible t')
    (h : TermWording.ofTerm t = TermWording.ofTerm t') : value t.1 = value t'.1 ∧ t.2 = t'.2 := by
  rw [TermWording.ofTerm, TermWording.ofTerm, TermWording.mk.injEq, followingSign_eq ht.isFinite,
    followingSign_eq ht'.isFinite] at h
  obtain ⟨hsign, hsize, hlabel⟩ := h
  have habs := ht.followingSize_inj ht' hsize
  refine ⟨?_, hlabel⟩
  by_cases hneg : value t.1 < 0 <;> by_cases hneg' : value t'.1 < 0 <;>
    simp only [hneg, hneg', if_true, if_false] at hsign
  · rw [abs_of_neg hneg, abs_of_neg hneg', neg_inj] at habs
    exact habs
  · exact absurd hsign (by decide)
  · exact absurd hsign (by decide)
  · rwa [abs_of_nonneg (not_lt.mp hneg), abs_of_nonneg (not_lt.mp hneg')] at habs

/-- What the words of terms tell. -/
theorem map_ofTerm_inj (hterms : ∀ t ∈ terms, Legible t) (hterms' : ∀ t ∈ terms', Legible t)
    (h : terms.map TermWording.ofTerm = terms'.map TermWording.ofTerm) :
    (terms.map fun t => (value t.1, t.2)) = terms'.map fun t => (value t.1, t.2) := by
  induction terms generalizing terms' with
  | nil => rw [List.map_eq_nil_iff.mp h.symm]
  | cons t terms ih =>
    obtain ⟨ht, hterms⟩ := List.forall_mem_cons.mp hterms
    cases terms' with
    | nil => contradiction
    | cons t' terms' =>
      obtain ⟨ht', hterms'⟩ := List.forall_mem_cons.mp hterms'
      rw [List.map_cons, List.map_cons, List.cons.injEq] at h
      obtain ⟨hvalue, hlabel⟩ := ht.ofTerm_inj ht' h.1
      rw [List.map_cons, List.map_cons, hvalue, hlabel, ih hterms hterms' h.2]

/-! ### Words for legible expressions -/

/-- A zero is not shown as a constant. -/
theorem isNegligible_of_value_zero (hc : c.isFinite = true) (h : value c = 0) :
    Scalar.isNegligible c = true := by
  have hlimit : (Scalar.ofDecimal 1 (-10) : Float).isFinite = true := by decide +kernel
  have hpos : ¬(Scalar.ofDecimal 1 (-10) : Float) < 0.0 := by decide +kernel
  rw [Binary64.lt_iff_value_lt hlimit Binary64.isFinite_zero, Binary64.value_zero] at hpos
  obtain ⟨hfinite, habs⟩ := Binary64.value_abs hc
  have hsmall : ¬(Scalar.ofDecimal 1 (-10) : Float) < c.abs := by
    rwa [Binary64.lt_iff_value_lt hlimit hfinite, habs, h, abs_zero]
  rw [Scalar.isNegligible, Bool.not_eq_true', decide_eq_false_iff_not]
  exact hsmall

theorem TermWording.isProper_ofTerm (ht : Legible t) : (TermWording.ofTerm t).IsProper where
  sign := by
    have hsign : followingSign t.1 = '-' ∨ followingSign t.1 = '+' := by
      rw [followingSign]
      exact ite_eq_or_eq ..
    rcases hsign with hsign | hsign <;> simp [ofTerm, hsign]
  size a ha := by
    rcases ht.followingSize_cases with ⟨-, hsize⟩ | hsize
    · simp [ofTerm, hsize] at ha
    · rw [ofTerm, hsize] at ha
      exact isNumeric_of_mem_reportText (Binary64.value_abs ht.isFinite).1 ha
  label := ht.isNamed

theorem Wording.isProper_ofTerms (hc : c.isFinite = true) (hterms : ∀ t ∈ terms, Legible t) :
    (Wording.ofTerms c terms).IsProper := by
  have hrest : ∀ {terms : List (Float × Label)}, (∀ t ∈ terms, Legible t) →
      ∀ w ∈ terms.map TermWording.ofTerm, w.IsProper := fun hterms w hw => by
    obtain ⟨t, ht, rfl⟩ := List.mem_map.mp hw
    exact TermWording.isProper_ofTerm (hterms t ht)
  cases hsmall : Scalar.isNegligible c with
  | false =>
    rw [ofTerms_shown hsmall]
    exact ⟨fun a ha => isNumeric_of_mem_reportText hc ha, by simp, hrest hterms⟩
  | true =>
    cases terms with
    | nil =>
      rw [ofTerms_nil hsmall]
      refine ⟨fun a ha => ?_, by simp, by simp⟩
      rw [List.mem_singleton.mp ha]
      decide
    | cons t terms =>
      obtain ⟨ht, hterms⟩ := List.forall_mem_cons.mp hterms
      rw [ofTerms_cons hsmall]
      refine ⟨fun a ha => ?_, fun l hl => ?_, hrest hterms⟩
      · rcases ht.leadingSize_cases with ⟨-, hsize⟩ | ⟨-, hsize⟩ | hsize <;>
          simp only [hsize] at ha
        · simp at ha
        · rw [List.mem_singleton.mp ha]
          decide
        · exact isNumeric_of_mem_reportText ht.isFinite ha
      · obtain rfl : t.2 = l := Option.some.inj hl
        exact ht.isNamed

/-- A constant that is shown is not shown as zero. -/
theorem reportText_ne_zero (hc : c.isFinite = true) (hshown : Scalar.isNegligible c = false) :
    (reportText c).toList ≠ ['0'] := by
  intro h
  have hzero : (reportText 0.0).toList = "0".toList :=
    congrArg String.toList (by decide +kernel : reportText 0.0 = "0")
  have hvalue := value_eq_of_reportText_eq hc Binary64.isFinite_zero (h.trans hzero.symm)
  rw [Binary64.value_zero] at hvalue
  rw [isNegligible_of_value_zero hc hvalue] at hshown
  contradiction

/-- An expression without a constant has different words from one with a constant. -/
theorem Wording.ofTerms_ne (hd : d.isFinite = true) (hsmall : Scalar.isNegligible c = true)
    (hshown : Scalar.isNegligible d = false) (terms terms' : List (Float × Label)) :
    Wording.ofTerms c terms ≠ Wording.ofTerms d terms' := by
  intro h
  rw [ofTerms_shown hshown] at h
  cases terms with
  | nil =>
    rw [ofTerms_nil hsmall, Wording.mk.injEq] at h
    exact reportText_ne_zero hd hshown h.1.symm
  | cons t terms =>
    rw [ofTerms_cons hsmall, Wording.mk.injEq] at h
    exact absurd h.2.1 (by simp)

/-- **The words of an expression** tell the constant and the terms, if a constant is left out only
when it is zero. -/
theorem Wording.ofTerms_inj (hc : c.isFinite = true) (hd : d.isFinite = true)
    (hc' : value c = 0 ∨ Scalar.isNegligible c = false)
    (hd' : value d = 0 ∨ Scalar.isNegligible d = false)
    (hterms : ∀ t ∈ terms, Legible t) (hterms' : ∀ t ∈ terms', Legible t)
    (h : Wording.ofTerms c terms = Wording.ofTerms d terms') :
    value c = value d ∧
      (terms.map fun t => (value t.1, t.2)) = terms'.map fun t => (value t.1, t.2) := by
  cases hsmall : Scalar.isNegligible c with
  | false =>
    cases hsmall' : Scalar.isNegligible d with
    | false =>
      rw [ofTerms_shown hsmall, ofTerms_shown hsmall', Wording.mk.injEq] at h
      exact ⟨value_eq_of_reportText_eq hc hd h.1, map_ofTerm_inj hterms hterms' h.2.2⟩
    | true => exact absurd h.symm (ofTerms_ne hc hsmall' hsmall _ _)
  | true =>
    cases hsmall' : Scalar.isNegligible d with
    | false => exact absurd h (ofTerms_ne hd hsmall hsmall' _ _)
    | true =>
      have hzero : value c = 0 := hc'.resolve_right (by simp [hsmall])
      have hzero' : value d = 0 := hd'.resolve_right (by simp [hsmall'])
      refine ⟨hzero.trans hzero'.symm, ?_⟩
      cases terms with
      | nil =>
        cases terms' with
        | nil => rfl
        | cons t' terms' =>
          rw [ofTerms_nil hsmall, ofTerms_cons hsmall', Wording.mk.injEq] at h
          exact absurd h.2.1 (by simp)
      | cons t terms =>
        obtain ⟨ht, hterms⟩ := List.forall_mem_cons.mp hterms
        cases terms' with
        | nil =>
          rw [ofTerms_cons hsmall, ofTerms_nil hsmall', Wording.mk.injEq] at h
          exact absurd h.2.1 (by simp)
        | cons t' terms' =>
          obtain ⟨ht', hterms'⟩ := List.forall_mem_cons.mp hterms'
          rw [ofTerms_cons hsmall, ofTerms_cons hsmall', Wording.mk.injEq, Option.some.injEq] at h
          rw [List.map_cons, List.map_cons, ht.leadingSize_inj ht' h.1, h.2.1,
            map_ofTerm_inj hterms hterms' h.2.2]

end QuboReduction

import QuboReduction.Proofs.Interpretation

/-!
# Conversions in two parts

A list of stages may be cut anywhere: converting a problem by all of them comes to converting it by
the first ones and the outcome by the others, with the records of both parts one after the other. A
log of records may be cut in the same way. Where the two parts of a log do not fit to each other,
the whole log is refused for its broken link, and the first part for the length of the vector that
the second part has led to.

## Main results

* `QuboReduction.Record.linked_append_iff` — linked records in two parts.
* `QuboReduction.Record.interpretAll_append_eq_ok_iff` — interpretation in two parts.
* `QuboReduction.convert_append` — conversion in two parts, errors included.
-/

namespace QuboReduction

variable {α : Type} [Scalar α]

/-! ### Records in two parts -/

namespace Record

variable {before after : List (Record α)} {t s : List α}

omit [Scalar α] in
/-- Linked records are linked up to any point and from there on. -/
theorem linked_append_iff {n m : Nat} :
    Linked n (before ++ after) m ↔ ∃ k, Linked n before k ∧ Linked k after m := by
  constructor
  · induction before generalizing n with
    | nil => exact fun h => ⟨n, rfl, h⟩
    | cons r before ih =>
      rintro ⟨hsource, hshaped, hrest⟩
      obtain ⟨k, hbefore, hafter⟩ := ih hrest
      exact ⟨k, ⟨hsource, hshaped, hbefore⟩, hafter⟩
  · rintro ⟨k, hbefore, hafter⟩
    exact hbefore.append hafter

/-- **Interpretation in two parts.** Records take a vector back exactly when the last ones do and
the first ones take the outcome back, whether the records fit to each other or not. -/
theorem interpretAll_append_eq_ok_iff :
    interpretAll (before ++ after) t = .ok s ↔
      ∃ u, interpretAll after t = .ok u ∧ interpretAll before u = .ok s := by
  simp only [interpretAll_eq_ok_iff, backAll_append, linked_append_iff]
  constructor
  · rintro ⟨⟨k, hbefore, hafter⟩, rfl⟩
    have hlength : (backAll after t).length = k := hafter.length_backAll rfl
    exact ⟨backAll after t, ⟨hlength ▸ hafter, rfl⟩, hlength ▸ hbefore, rfl⟩
  · rintro ⟨u, ⟨hafter, rfl⟩, hbefore, rfl⟩
    exact ⟨⟨_, hbefore, hafter⟩, rfl⟩

end Record

/-! ### Stages in two parts -/

variable {p : Problem α} {stages before after : List (Stage α)}

/-- Once all factors are valid, a conversion is a run of its stages. -/
theorem convert_of_valid (hvalid : ∀ s ∈ stages, s.validate = .ok ()) :
    convert p stages = runStages p stages := by
  rw [convert, forM_eq_ok_iff.mpr hvalid, ok_bind]

/-- **Conversion in two parts.** For stages with valid factors, a conversion succeeds exactly when
the first stages convert the problem and the others convert the outcome; the records are those of
both parts, in order. It is refused with the error of the first part, or else of the second one.
Vectors are taken back by any records in two parts, and so are objective values. -/
theorem convert_append (hvalid : ∀ s ∈ before ++ after, s.validate = .ok ()) :
    (∀ c, convert p (before ++ after) = .ok c ↔
      ∃ c₁ c₂, convert p before = .ok c₁ ∧ convert c₁.problem after = .ok c₂ ∧
        c.problem = c₂.problem ∧ c.records = c₁.records ++ c₂.records) ∧
    (∀ e, convert p (before ++ after) = .error e ↔
      convert p before = .error e ∨
        ∃ c₁, convert p before = .ok c₁ ∧ convert c₁.problem after = .error e) ∧
    (∀ (r₁ r₂ : List (Record α)) t s, Record.interpretAll (r₁ ++ r₂) t = .ok s ↔
      ∃ u, Record.interpretAll r₂ t = .ok u ∧ Record.interpretAll r₁ u = .ok s) ∧
    ∀ (r₁ r₂ : List (Record α)) value, Record.interpretObjectiveAll (r₁ ++ r₂) value =
      Record.interpretObjectiveAll r₁ (Record.interpretObjectiveAll r₂ value) := by
  obtain ⟨hbefore, hafter⟩ := List.forall_mem_append.mp hvalid
  simp only [convert_of_valid hvalid, convert_of_valid hbefore, convert_of_valid hafter,
    runStages_append]
  refine ⟨fun c => ?_, fun e => ?_, fun _ _ _ _ => Record.interpretAll_append_eq_ok_iff,
    Record.interpretObjectiveAll_append⟩
  · simp only [bind_eq_ok, pure_eq_ok]
    constructor
    · rintro ⟨c₁, h₁, c₂, h₂, rfl⟩
      exact ⟨c₁, c₂, h₁, h₂, rfl, rfl⟩
    · rintro ⟨c₁, c₂, h₁, h₂, hproblem, hrecords⟩
      exact ⟨c₁, h₁, c₂, h₂, by rw [← hproblem, ← hrecords]⟩
  · simp only [bind_eq_error, pure_ne_error, and_false, exists_false, or_false]

/-- The rationing problem may be converted to equalities with slack variables first, and these into
a minimization over bits by a second conversion. Every vector over the bits is taken back through
both logs. -/
theorem rationing_in_two_parts :
    ∃ c c₁ c₂, convert rationing (quboStages (some 12)) = .ok c ∧
      convert rationing [.linearInequalityToPenalty (some 12), .inequalityToEquality] = .ok c₁ ∧
      convert c₁.problem [.integerToBinary, .linearEqualityToPenalty (some 12),
        .maximizeToMinimize] = .ok c₂ ∧
      c.problem = c₂.problem ∧ c.records = c₁.records ++ c₂.records ∧
      ∀ t : List Rat, t.length = c.problem.size →
        ∃ u s, c₂.interpret t = .ok u ∧ c₁.interpret u = .ok s := by
  have hok : (convert rationing (quboStages (some 12))).isOk = true := by decide +kernel
  obtain ⟨c, hc⟩ := isOk_iff.mp hok
  have hvalid : ∀ s ∈ ([.linearInequalityToPenalty (some 12), .inequalityToEquality] :
      List (Stage Rat)) ++ [.integerToBinary, .linearEqualityToPenalty (some 12),
        .maximizeToMinimize], s.validate = .ok () :=
    forM_eq_ok_iff.mp (by rfl)
  obtain ⟨hrun, -, hvectors, -⟩ := convert_append (p := rationing) hvalid
  obtain ⟨c₁, c₂, h₁, h₂, hproblem, hrecords⟩ := (hrun c).mp hc
  refine ⟨c, c₁, c₂, hc, h₁, h₂, hproblem, hrecords, fun t ht => ?_⟩
  obtain ⟨-, hlinked, -⟩ := runStages_accounts (runStages_of_convert hc)
  have ht := hlinked.interpretAll_eq ht
  rw [hrecords] at ht
  obtain ⟨u, hu, hs⟩ := (hvectors _ _ _ _).mp ht
  exact ⟨u, _, hu, hs⟩

end QuboReduction

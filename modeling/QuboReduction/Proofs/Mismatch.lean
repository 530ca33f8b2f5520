import QuboReduction.Proofs.Interpretation
import QuboReduction.Scalar.Double

/-!
# The counts that a refusal tells

When records do not take a vector back, the refusal tells two counts. Two neighbours that do not fit
to each other, a vector of another length and a record with too few or too many mappings each show
in the counts that were compared. The last check of a record is for two things at once, the number
of its mappings and the entries that they ask for, and it tells the number of mappings in both
cases. So the two counts are the same exactly when an entry past the end is all that is wrong.

## Main definitions

* `QuboReduction.Record.ReachesPastAt` — the place of a record that fits but for an entry past the
  end of the vector.

## Main results

* `QuboReduction.Record.interpret_error_counts` — the counts that one record tells.
* `QuboReduction.Record.interpretAll_error_counts` — when the two counts of a refusal are the same.
-/

namespace QuboReduction

namespace Record

variable {α : Type} [Scalar α] {r : Record α} {records : List (Record α)} {t : List α}
  {position : Nat} {e : ConversionError α}

/-- The record at a position fits to its neighbours and to the vector that it is given, and has one
mapping for each variable before its stage, but one of them asks for an entry past the end. -/
def ReachesPastAt (records : List (Record α)) (t : List α) (position : Nat) : Prop :=
  Chained records ∧ ∃ before r after u, records = before ++ r :: after ∧
    position = before.length ∧ interpretAll after t = .ok u ∧ u.length = r.targetSize ∧
    r.mappings.length = r.sourceSize ∧ ∃ m ∈ r.mappings, ∃ i ∈ m.indices, r.targetSize ≤ i

omit [Scalar α] in
theorem inRange_eq_false_iff :
    r.inRange = false ↔ ∃ m ∈ r.mappings, ∃ i ∈ m.indices, r.targetSize ≤ i := by
  rw [← Bool.not_eq_true, inRange_iff]
  simp only [not_forall, Nat.not_lt, exists_prop]

/-- **The counts of one record.** It tells the length of the vector or the number of its mappings,
whichever is wrong, and the number of its mappings also when neither is. -/
theorem interpret_error_counts (h : r.interpret position t = .error e) :
    ∃ expected actual, e = .mismatch position expected actual ∧
      (expected = actual ↔ t.length = r.targetSize ∧ r.mappings.length = r.sourceSize ∧
        ∃ m ∈ r.mappings, ∃ i ∈ m.indices, r.targetSize ≤ i) := by
  rw [interpret] at h
  split_ifs at h with hlength hshape
  · exact ⟨_, _, (Except.error.inj h).symm, fun heq => absurd heq.symm hlength,
      fun hreach => absurd hreach.1 hlength⟩
  · refine ⟨_, _, (Except.error.inj h).symm, fun heq => ?_, fun hreach => hreach.2.1.symm⟩
    have hindex : r.inRange = false := hshape.resolve_left (not_not.mpr heq.symm)
    exact ⟨not_not.mp hlength, heq.symm, inRange_eq_false_iff.mp hindex⟩

omit [Scalar α] in
/-- Records are not chained where two neighbours do not fit to each other. -/
theorem not_chained_of_ne {before after : List (Record α)} {s : Record α}
    (h : r.targetSize ≠ s.sourceSize) : ¬Chained (before ++ r :: s :: after) := fun hchained =>
  h (List.isChain_cons_cons.mp (List.isChain_append.mp hchained).2.1).1

/-- The counts are the same when a record fits in every respect other than an entry past the end of
its vector, and only then. -/
theorem exists_mismatch (h : interpretAll records t = .error e) :
    ∃ position expected actual, e = .mismatch position expected actual ∧
      (expected = actual ↔ ReachesPastAt records t position) := by
  rcases bind_eq_error.mp h with hlinks | ⟨_, hlinks, hrun⟩
  · obtain ⟨before, r, s, after, rfl, hsize, -, rfl⟩ := checkLinks_error hlinks
    exact ⟨_, _, _, rfl, fun heq => absurd heq hsize,
      fun hreach => absurd hreach.1 (not_chained_of_ne hsize)⟩
  · obtain ⟨before, r, after, u, rfl, hafter, hr⟩ := interpretFrom_error hrun
    obtain ⟨expected, actual, rfl, hcounts⟩ := interpret_error_counts hr
    have hu : interpretAll after t = .ok u :=
      interpretAll_eq_ok_iff.mpr (linked_of_interpretFrom hafter)
    refine ⟨_, expected, actual, rfl, hcounts.trans ⟨fun hreach => ?_, ?_⟩⟩
    · exact ⟨checkLinks_eq_ok_iff.mp hlinks, before, r, after, u, rfl, Nat.zero_add _, hu, hreach⟩
    · -- the position tells the record, and so the vector that it is given
      rintro ⟨-, before', r', after', u', hsplit, hposition, hu', hreach⟩
      rw [Nat.zero_add] at hposition
      obtain ⟨rfl, hrest⟩ := List.append_inj hsplit hposition
      obtain ⟨rfl, rfl⟩ := List.cons.inj hrest
      obtain rfl := Except.ok.inj (hu.symm.trans hu')
      exact hreach

/-- Where an entry past the end is asked for, there is a mapping that does so. -/
theorem ReachesPastAt.exists_index (h : ReachesPastAt records t position) :
    ∃ r ∈ records, ∃ m ∈ r.mappings, ∃ i ∈ m.indices, r.targetSize ≤ i := by
  obtain ⟨-, before, r, after, u, rfl, -, -, -, -, hindex⟩ := h
  exact ⟨r, by simp, hindex⟩

/-- **When the two counts are the same.** A refusal by any records tells two different counts, but
for a record that fits in every respect other than an entry past the end of its vector. If the
mappings of all records ask for entries of their vectors only, the counts are different whatever is
wrong. -/
theorem interpretAll_error_counts (h : interpretAll records t = .error e) :
    ∃ position expected actual, e = .mismatch position expected actual ∧
      (expected = actual ↔ ReachesPastAt records t position) ∧
      ((∀ r ∈ records, ∀ m ∈ r.mappings, ∀ i ∈ m.indices, i < r.targetSize) →
        expected ≠ actual) := by
  obtain ⟨position, expected, actual, he, hcounts⟩ := exists_mismatch h
  refine ⟨position, expected, actual, he, hcounts, fun hrange hsame => ?_⟩
  obtain ⟨r, hr, m, hm, i, hi, hpast⟩ := (hcounts.mp hsame).exists_index
  exact Nat.not_le.mpr (hrange r hr m hm i hi) hpast

/-- A record for one variable whose only mapping asks for the sixth entry of vectors of length
one. -/
def reaching {α : Type} : Record α := ⟨.maximizeToMinimize, 1, 1, [.identity 5], [], false⟩

/-- The reaching record refuses a vector of the right length and tells that it expects one value and
got one, so it is not true that the two counts are always different. -/
theorem reaching_same_counts :
    interpretAll [reaching] [(1 : Float)] = .error (.mismatch 0 1 1) ∧
      ¬∀ (records : List (Record Float)) (t : List Float) (position expected actual : Nat),
        interpretAll records t = .error (.mismatch position expected actual) →
          expected ≠ actual := by
  have hrefused : interpretAll [reaching] [(1 : Float)] = .error (.mismatch 0 1 1) := rfl
  exact ⟨hrefused, fun h => h _ _ _ _ _ hrefused rfl⟩

/-- The counts tell what is wrong with the reaching record: with a vector of length one it is just
the entry past the end, and with one of length two it is not. -/
theorem reaching_counts :
    ReachesPastAt [reaching] [(1 : Float)] 0 ∧ ¬ReachesPastAt [reaching] [(1 : Float), 0] 0 := by
  have hone : interpretAll [reaching] [(1 : Float)] = .error (.mismatch 0 1 1) := rfl
  have htwo : interpretAll [reaching] [(1 : Float), 0] = .error (.mismatch 0 1 2) := rfl
  obtain ⟨_, _, _, heq, hsame, -⟩ := interpretAll_error_counts hone
  obtain ⟨_, _, _, heq', hsame', -⟩ := interpretAll_error_counts htwo
  obtain ⟨rfl, rfl, rfl⟩ := ConversionError.mismatch.inj heq
  obtain ⟨rfl, rfl, rfl⟩ := ConversionError.mismatch.inj heq'
  exact ⟨hsame.mp rfl, fun hreach => absurd (hsame'.mpr hreach) (by decide)⟩

end Record

end QuboReduction

import Mathlib.Data.List.Chain
import QuboReduction.Proofs.Accounting

/-!
# Interpretation by arbitrary records

Records may come from a document that was written by hand, so they need not fit to each other, to
the vector or to their own mappings. Whatever they are, interpretation has an outcome: it never asks
for an entry past the end of a vector, it succeeds exactly when the records are linked and end at
the length of the vector, and otherwise it tells the place of the first pair of neighbours that do
not fit, or else of the last record that does not fit to the vector that it is given.

The records of a conversion are linked, so what is left there is the length of the vector. It is the
last record that refuses a vector of another size; a conversion without stages has no record.

## Main definitions

* `QuboReduction.Record.readAll?` — interpretation in which every entry has to be there.
* `QuboReduction.Record.Chained` — records that fit to their neighbours.
* `QuboReduction.Record.BreaksAt`, `QuboReduction.Record.RejectsAt` — the places of refusals.

## Main results

* `QuboReduction.Record.readAll?_eq` — no entry past the end of a vector is asked for.
* `QuboReduction.Record.interpretAll_eq_ok_iff`, `QuboReduction.Record.exists_linked_iff` — which
  records and vectors are accepted.
* `QuboReduction.Record.interpretAll_error` — where a refusal takes place.
* `QuboReduction.Record.interpretAll_outcome` — all outcomes.
* `QuboReduction.convert_interpret_of_length_ne` — vectors of another size.
-/

namespace QuboReduction

variable {α : Type} [Scalar α]

/-! ### Entries that have to be there -/

/-- A step on each element of a list, which gives a value under a condition. -/
private theorem mapM_eq_some_iff {β γ : Type} {f : β → Option γ} {P : β → Prop} {g : β → γ}
    (h : ∀ b c, f b = some c ↔ P b ∧ c = g b) {l : List β} {cs : List γ} :
    l.mapM f = some cs ↔ (∀ b ∈ l, P b) ∧ cs = l.map g := by
  induction l generalizing cs with
  | nil => simp [eq_comm]
  | cons b l ih =>
    simp only [List.mapM_cons, Option.bind_eq_bind, Option.bind_eq_some_iff, h, ih, Option.pure_def,
      Option.some.injEq, List.forall_mem_cons, List.map_cons]
    constructor
    · rintro ⟨_, ⟨hb, rfl⟩, _, ⟨hl, rfl⟩, rfl⟩
      exact ⟨⟨hb, hl⟩, rfl⟩
    · rintro ⟨⟨hb, hl⟩, rfl⟩
      exact ⟨g b, ⟨hb, rfl⟩, l.map g, ⟨hl, rfl⟩, rfl⟩

private theorem getElem?_eq_some_valueAt_iff {values : List α} {i : Nat} {a : α} :
    values[i]? = some a ↔ i < values.length ∧ a = valueAt values i := by
  rw [valueAt, List.getD_eq_getElem?_getD, List.getElem?_eq_some_iff]
  constructor
  · rintro ⟨hi, rfl⟩
    exact ⟨hi, by simp [hi]⟩
  · rintro ⟨hi, rfl⟩
    exact ⟨hi, by simp [hi]⟩

namespace Mapping

/-- The value of the recovered variable, where every entry has to be in the vector; there is none if
an entry past its end is asked for. -/
def read? (m : Mapping α) (values : List α) : Option α :=
  match m with
  | identity index => values[index]?
  | affine offset terms => do
    let products ← terms.mapM fun t => (fun x => t.2 * x) <$> values[t.1]?
    pure (offset + Scalar.sum products)

/-- A mapping has a value when the vector has an entry at each of its indices, and only then. -/
theorem read?_eq_some_iff {m : Mapping α} {values : List α} {a : α} :
    m.read? values = some a ↔
      (∀ i ∈ m.indices, i < values.length) ∧ a = m.apply (valueAt values) := by
  cases m with
  | identity index => simp [read?, indices, apply, getElem?_eq_some_valueAt_iff]
  | affine offset terms =>
    have hterm : ∀ (t : Nat × α) c, (fun x => t.2 * x) <$> values[t.1]? = some c ↔
        t.1 < values.length ∧ c = t.2 * valueAt values t.1 := fun t c => by
      simp only [Option.map_eq_map, Option.map_eq_some_iff, getElem?_eq_some_valueAt_iff]
      constructor
      · rintro ⟨_, ⟨hi, rfl⟩, rfl⟩
        exact ⟨hi, rfl⟩
      · rintro ⟨hi, rfl⟩
        exact ⟨_, ⟨hi, rfl⟩, rfl⟩
    simp only [read?, Option.bind_eq_bind, Option.bind_eq_some_iff, mapM_eq_some_iff hterm, indices,
      apply, Option.pure_def, Option.some.injEq, List.forall_mem_map]
    constructor
    · rintro ⟨_, ⟨hi, rfl⟩, rfl⟩
      exact ⟨hi, rfl⟩
    · rintro ⟨hi, rfl⟩
      exact ⟨_, ⟨hi, rfl⟩, rfl⟩

end Mapping

namespace Record

variable {r : Record α} {records : List (Record α)} {t s : List α} {position : Nat}
  {e : ConversionError α}

/-- A vector taken back through one stage, where every entry has to be in the vector. -/
def read? (r : Record α) (position : Nat) (values : List α) :
    Option (Except (ConversionError α) (List α)) :=
  if values.length ≠ r.targetSize then
    some (.error (.mismatch position r.targetSize values.length))
  else if r.mappings.length ≠ r.sourceSize ∨ r.inRange = false then
    some (.error (.mismatch position r.sourceSize r.mappings.length))
  else Except.ok <$> r.mappings.mapM fun m => m.read? values

/-- A vector taken back through records, where every entry has to be in its vector. -/
def readFrom? (position : Nat) :
    List (Record α) → List α → Option (Except (ConversionError α) (List α))
  | [], values => some (.ok values)
  | r :: rest, values => do
    match ← readFrom? (position + 1) rest values with
    | .ok values => r.read? position values
    | .error e => some (.error e)

/-- Interpretation in which every entry that is asked for has to be in its vector; there is no
outcome if one is not. -/
def readAll? (records : List (Record α)) (values : List α) :
    Option (Except (ConversionError α) (List α)) :=
  match checkLinks 0 records with
  | .ok () => readFrom? 0 records values
  | .error e => some (.error e)

omit [Scalar α] in
theorem inRange_iff : r.inRange = true ↔ ∀ m ∈ r.mappings, ∀ i ∈ m.indices, i < r.targetSize := by
  simp [inRange]

omit [Scalar α] in
theorem wellShaped_iff : r.WellShaped ↔ r.mappings.length = r.sourceSize ∧
    ∀ m ∈ r.mappings, ∀ i ∈ m.indices, i < r.targetSize :=
  ⟨fun h => ⟨h.length_mappings, inRange_iff.mp h.inRange⟩, fun h => ⟨h.1, inRange_iff.mpr h.2⟩⟩

/-- The checks of a record cover every entry that its mappings ask for. -/
theorem read?_eq (r : Record α) (position : Nat) (values : List α) :
    r.read? position values = some (r.interpret position values) := by
  rw [read?, interpret]
  split
  · rfl
  · rename_i hlength
    split
    · rfl
    · rename_i hshape
      simp only [not_or, Bool.not_eq_false, inRange_iff] at hshape
      have hread : r.mappings.mapM (fun m => m.read? values) =
          some (r.mappings.map fun m => m.apply (valueAt values)) := by
        refine (mapM_eq_some_iff fun m a => Mapping.read?_eq_some_iff).mpr ⟨?_, rfl⟩
        rw [not_not.mp hlength]
        exact hshape.2
      rw [hread]
      rfl

private theorem readFrom?_eq (position : Nat) (records : List (Record α)) (values : List α) :
    readFrom? position records values = some (interpretFrom position records values) := by
  induction records generalizing position with
  | nil => rfl
  | cons r records ih =>
    rw [readFrom?, ih, interpretFrom]
    cases interpretFrom (position + 1) records values with
    | ok values => exact r.read?_eq position values
    | error e => rfl

/-- **No entry past the end of a vector is asked for**, whatever the records are. -/
theorem readAll?_eq (records : List (Record α)) (values : List α) :
    readAll? records values = some (interpretAll records values) := by
  rw [readAll?, interpretAll]
  cases checkLinks 0 records with
  | ok _ => exact readFrom?_eq 0 records values
  | error e => rfl

/-! ### What is accepted -/

/-- Each record ends at the number of variables from which the next one starts. -/
def Chained (records : List (Record α)) : Prop :=
  records.IsChain fun r s => r.targetSize = s.sourceSize

/-- A record takes the vectors of its last size back, if its mappings fit to its sizes. -/
theorem interpret_eq_ok_iff :
    r.interpret position t = .ok s ↔ t.length = r.targetSize ∧ r.WellShaped ∧ s = r.back t := by
  constructor
  · intro h
    rw [interpret] at h
    split_ifs at h with hlength hshape
    rw [not_or, not_not, Bool.not_eq_false] at hshape
    exact ⟨not_not.mp hlength, ⟨hshape.1, hshape.2⟩, (Except.ok.inj h).symm⟩
  · rintro ⟨hlength, hshaped, rfl⟩
    exact hshaped.interpret_eq hlength position

theorem linked_of_interpretFrom (h : interpretFrom position records t = .ok s) :
    Linked s.length records t.length ∧ s = backAll records t := by
  induction records generalizing position s with
  | nil =>
    obtain rfl := Except.ok.inj h
    exact ⟨rfl, rfl⟩
  | cons r records ih =>
    obtain ⟨u, hrest, hr⟩ := bind_eq_ok.mp h
    obtain ⟨hlength, hshaped, rfl⟩ := interpret_eq_ok_iff.mp hr
    obtain ⟨hlinked, rfl⟩ := ih hrest
    refine ⟨⟨?_, hshaped, hlength ▸ hlinked⟩, rfl⟩
    rw [length_back, hshaped.length_mappings]

/-- Records take a vector back when they are linked and end at its length, and only then. -/
theorem interpretAll_eq_ok_iff :
    interpretAll records t = .ok s ↔ Linked s.length records t.length ∧ s = backAll records t := by
  constructor
  · intro h
    obtain ⟨_, -, h⟩ := bind_eq_ok.mp h
    exact linked_of_interpretFrom h
  · rintro ⟨hlinked, rfl⟩
    exact hlinked.interpretAll_eq rfl

omit [Scalar α] in
/-- Linked records are those that fit to their neighbours and to their own mappings; the last one
tells where they end. -/
theorem exists_linked_iff {m : Nat} :
    (∃ n, Linked n records m) ↔
      Chained records ∧ (∀ r ∈ records, r.WellShaped) ∧
        ∀ r ∈ records.getLast?, m = r.targetSize := by
  induction records with
  | nil => simp [Linked, Chained]
  | cons r records ih =>
    cases records with
    | nil => simp [Linked, Chained, eq_comm]
    | cons s records =>
      have hlinked : (∃ n, Linked n (r :: s :: records) m) ↔
          r.targetSize = s.sourceSize ∧ r.WellShaped ∧ ∃ n, Linked n (s :: records) m := by
        constructor
        · rintro ⟨n, -, hshaped, hsize, hrest⟩
          exact ⟨hsize.symm, hshaped, s.sourceSize, rfl, hrest⟩
        · rintro ⟨hsize, hshaped, n, -, hrest⟩
          exact ⟨r.sourceSize, rfl, hshaped, hsize.symm, hrest⟩
      have hchained : Chained (r :: s :: records) ↔
          r.targetSize = s.sourceSize ∧ Chained (s :: records) := List.isChain_cons_cons
      have hshaped : (∀ q ∈ r :: s :: records, q.WellShaped) ↔
          r.WellShaped ∧ ∀ q ∈ s :: records, q.WellShaped := List.forall_mem_cons
      rw [hlinked, ih, hchained, hshaped, List.getLast?_cons_cons]
      constructor
      · rintro ⟨hsize, hr, hrest, hshapes, hlast⟩
        exact ⟨⟨hsize, hrest⟩, ⟨hr, hshapes⟩, hlast⟩
      · rintro ⟨⟨hsize, hrest⟩, ⟨hr, hshapes⟩, hlast⟩
        exact ⟨hsize, hr, hrest, hshapes, hlast⟩

/-! ### What is refused -/

/-- The first pair of neighbours that do not fit to each other; the second one of them stands at
`position`. -/
def BreaksAt (records : List (Record α)) (position : Nat) : Prop :=
  ∃ before r s after, records = before ++ r :: s :: after ∧ position = before.length + 1 ∧
    r.targetSize ≠ s.sourceSize ∧ Chained (before ++ [r])

/-- The last record that does not fit to the vector that it is given stands at `position`: the
records after it take `t` back to a vector `u`, which does not have the last size of the record, or
else the mappings of the record do not fit to its sizes. -/
def RejectsAt (records : List (Record α)) (t : List α) (position : Nat) : Prop :=
  ∃ before r after u, records = before ++ r :: after ∧ position = before.length ∧
    interpretAll after t = .ok u ∧ ¬ (u.length = r.targetSize ∧ r.WellShaped)

omit [Scalar α] in
theorem checkLinks_eq_ok_iff : checkLinks position records = .ok () ↔ Chained records := by
  induction records generalizing position with
  | nil => simp [checkLinks, Chained]
  | cons r records ih =>
    cases records with
    | nil => simp [checkLinks, Chained]
    | cons s records =>
      rw [checkLinks, Chained, List.isChain_cons_cons]
      split
      · rename_i hsize
        simp [hsize]
      · rename_i hsize
        rw [ih, Chained]
        simp [not_not.mp hsize]

omit [Scalar α] in
/-- The links are checked from the first one on. -/
theorem checkLinks_error (h : checkLinks position records = .error e) :
    ∃ before r s after, records = before ++ r :: s :: after ∧ r.targetSize ≠ s.sourceSize ∧
      Chained (before ++ [r]) ∧
        e = .mismatch (position + (before.length + 1)) r.targetSize s.sourceSize := by
  induction records generalizing position with
  | nil => simp [checkLinks] at h
  | cons r records ih =>
    cases records with
    | nil => simp [checkLinks] at h
    | cons s records =>
      rw [checkLinks] at h
      split at h
      · rename_i hsize
        exact ⟨[], r, s, records, rfl, hsize, List.isChain_singleton r, (Except.error.inj h).symm⟩
      · rename_i hsize
        obtain ⟨before, r', s', after, hsplit, hsize', hchained, rfl⟩ := ih h
        refine ⟨r :: before, r', s', after, by rw [hsplit]; rfl, hsize', ?_, ?_⟩
        · refine List.isChain_cons.mpr ⟨fun y hy => ?_, hchained⟩
          -- the record after `r` is `s`, whichever of the two lists it is taken from
          have hhead : y ∈ (s :: records).head? := by
            rw [hsplit]
            cases before <;> exact hy
          obtain rfl := Option.some.inj hhead
          exact not_not.mp hsize
        · rw [List.length_cons]
          congr 1
          omega

/-- The records are gone through from the last one on. -/
theorem interpretFrom_error (h : interpretFrom position records t = .error e) :
    ∃ before r after u, records = before ++ r :: after ∧
      interpretFrom (position + before.length + 1) after t = .ok u ∧
        r.interpret (position + before.length) u = .error e := by
  induction records generalizing position with
  | nil => simp [interpretFrom] at h
  | cons r records ih =>
    rcases bind_eq_error.mp h with hrest | ⟨u, hrest, hr⟩
    · obtain ⟨before, r', after, u, rfl, hafter, hr'⟩ := ih hrest
      have hposition : position + (r :: before).length = position + 1 + before.length := by
        rw [List.length_cons]
        omega
      exact ⟨r :: before, r', after, u, rfl, hposition ▸ hafter, hposition ▸ hr'⟩
    · exact ⟨[], r, records, u, rfl, hrest, hr⟩

private theorem interpret_error (h : r.interpret position t = .error e) :
    ¬ (t.length = r.targetSize ∧ r.WellShaped) ∧
      ∃ expected actual, e = .mismatch position expected actual := by
  constructor
  · rintro ⟨hlength, hshaped⟩
    rw [hshaped.interpret_eq hlength] at h
    contradiction
  · rw [interpret] at h
    split_ifs at h
    · exact ⟨_, _, (Except.error.inj h).symm⟩
    · exact ⟨_, _, (Except.error.inj h).symm⟩

/-- **Where a refusal takes place**: at the first pair of neighbours that do not fit to each other,
or else at the last record that does not fit to the vector that it is given. -/
theorem interpretAll_error (h : interpretAll records t = .error e) :
    ∃ position expected actual, e = .mismatch position expected actual ∧
      (BreaksAt records position ∨ Chained records ∧ RejectsAt records t position) := by
  rcases bind_eq_error.mp h with hlinks | ⟨_, hlinks, hrun⟩
  · obtain ⟨before, r, s, after, hsplit, hsize, hchained, rfl⟩ := checkLinks_error hlinks
    exact ⟨_, _, _, rfl, Or.inl ⟨before, r, s, after, hsplit, Nat.zero_add _, hsize, hchained⟩⟩
  · obtain ⟨before, r, after, u, hsplit, hafter, hr⟩ := interpretFrom_error hrun
    obtain ⟨hrejects, expected, actual, rfl⟩ := interpret_error hr
    have hafter : interpretAll after t = .ok u :=
      interpretAll_eq_ok_iff.mpr (linked_of_interpretFrom hafter)
    exact ⟨_, _, _, rfl, Or.inr ⟨checkLinks_eq_ok_iff.mp hlinks, before, r, after, u, hsplit,
      Nat.zero_add _, hafter, hrejects⟩⟩

/-! ### All outcomes -/

/-- **Interpretation by any records.** No entry past the end of a vector is asked for. A vector is
taken back exactly when each record ends where the next one starts, has one mapping for each
variable before its stage and mentions variables after its stage only, and the last one ends at the
length of the vector; the result then has the first size of the first record, and without records it
is the vector itself. Otherwise the refusal tells the second one of the first two neighbours that do
not fit, or, if all of them do, the last record that does not fit to the vector that it is given. -/
theorem interpretAll_outcome (records : List (Record α)) (t : List α) :
    readAll? records t = some (interpretAll records t) ∧
      ((∃ s, interpretAll records t = .ok s) ↔ Chained records ∧
        (∀ r ∈ records, r.mappings.length = r.sourceSize ∧
          ∀ m ∈ r.mappings, ∀ i ∈ m.indices, i < r.targetSize) ∧
        ∀ r ∈ records.getLast?, t.length = r.targetSize) ∧
      (∀ s, interpretAll records t = .ok s →
        (records = [] → s = t) ∧ ∀ r ∈ records.head?, s.length = r.sourceSize) ∧
      ∀ e, interpretAll records t = .error e →
        ∃ position expected actual, e = .mismatch position expected actual ∧
          (BreaksAt records position ∨ Chained records ∧ RejectsAt records t position) := by
  refine ⟨readAll?_eq records t, ?_, fun s hs => ?_, fun e he => interpretAll_error he⟩
  · have hlinked : (∃ s, interpretAll records t = .ok s) ↔ ∃ n, Linked n records t.length :=
      ⟨fun ⟨_, hs⟩ => ⟨_, (interpretAll_eq_ok_iff.mp hs).1⟩,
        fun ⟨_, hn⟩ => ⟨_, hn.interpretAll_eq rfl⟩⟩
    simp only [hlinked, exists_linked_iff, wellShaped_iff]
  · obtain ⟨hlinked, hback⟩ := interpretAll_eq_ok_iff.mp hs
    constructor
    · rintro rfl
      exact hback
    · cases records with
      | nil => simp
      | cons r records => simpa using hlinked.1.symm

/-- Two records as somebody may write them, the second one with an entry and an expression for a
variable each. -/
def draftedRecords (index : Nat) (terms : List (Nat × Rat)) : List (Record Rat) :=
  [Record.identity .maximizeToMinimize 2,
    ⟨.integerToBinary, 2, 3, [.identity index, .affine 4 terms], [], false⟩]

/-- A vector of three entries is refused at the second record when the record mentions an entry 5,
and taken back without it, also by an expression without terms. -/
theorem draftedRecords_outcome :
    (readAll? (draftedRecords 0 [(1, 1), (5, 2)]) [1, 0, 1] = some (.error (.mismatch 1 2 2)) ∧
      (BreaksAt (draftedRecords 0 [(1, 1), (5, 2)]) 1 ∨
        Chained (draftedRecords 0 [(1, 1), (5, 2)]) ∧
          RejectsAt (draftedRecords 0 [(1, 1), (5, 2)]) [1, 0, 1] 1)) ∧
      interpretAll (draftedRecords 2 []) [1, 0, 1] = .ok [1, 4] ∧
        ∀ r ∈ (draftedRecords 2 []).head?, 2 = r.sourceSize := by
  have herror : interpretAll (draftedRecords 0 [(1, 1), (5, 2)]) [1, 0, 1] =
      .error (.mismatch 1 2 2) := by rfl
  obtain ⟨hread, -, -, hrefused⟩ :=
    interpretAll_outcome (draftedRecords 0 [(1, 1), (5, 2)]) [1, 0, 1]
  obtain ⟨position, expected, actual, heq, hplace⟩ := hrefused _ herror
  obtain ⟨rfl, rfl, rfl⟩ := ConversionError.mismatch.inj heq
  have hok : interpretAll (draftedRecords 2 []) [1, 0, 1] = .ok [1, 4] :=
    interpretAll_eq_ok_iff.mpr ⟨⟨rfl, ⟨rfl, rfl⟩, rfl, ⟨rfl, rfl⟩, rfl⟩, by decide +kernel⟩
  exact ⟨⟨herror ▸ hread, hplace⟩, hok,
    ((interpretAll_outcome (draftedRecords 2 []) [1, 0, 1]).2.2.1 _ hok).2⟩

end Record

/-! ### Conversions -/

variable {p : Problem α} {stages : List (Stage α)} {c : Conversion α}

/-- **Vectors of another size.** A conversion with at least one stage refuses every vector that does
not have one entry for each variable of the result, at its last record. A conversion without stages
has no record to refuse a vector by, and returns every vector as it is. -/
theorem convert_interpret_of_length_ne (h : convert p stages = .ok c) {t : List α}
    (ht : t.length ≠ c.problem.size) :
    (stages ≠ [] →
      c.interpret t = .error (.mismatch (stages.length - 1) c.problem.size t.length)) ∧
    (stages = [] → c.interpret t = .ok t) := by
  obtain ⟨hkinds, hlinked, -⟩ := runStages_accounts (runStages_of_convert h)
  have hlength : c.records.length = stages.length := by
    simpa using congrArg List.length hkinds
  constructor
  · intro hne
    have hrecords : c.records ≠ [] := fun hnil =>
      hne (List.length_eq_zero_iff.mp (by rw [← hlength, hnil, List.length_nil]))
    rw [Conversion.interpret, hlinked.interpretAll_error hrecords ht, hlength]
  · rintro rfl
    obtain rfl := Except.ok.inj (runStages_of_convert h)
    rfl

/-- A single value for the three variables of the rationing problem is refused after the standard
pipeline. -/
theorem rationing_refuses_single_value :
    ∃ c, convert rationing (quboStages none) = .ok c ∧ c.problem.size = 11 ∧
      c.interpret [1] = .error (.mismatch 4 11 1) := by
  have hsize : ((fun c => c.problem.size) <$> convert rationing (quboStages none)).toOption =
      some 11 := by decide +kernel
  cases hc : convert rationing (quboStages none) with
  | error e => simp [hc, Functor.map, Except.map, Except.toOption] at hsize
  | ok c =>
    have hsize : c.problem.size = 11 := by
      simpa [hc, Functor.map, Except.map, Except.toOption] using hsize
    have hne : [(1 : Rat)].length ≠ c.problem.size := by simp [hsize]
    have hrefused := (convert_interpret_of_length_ne hc hne).1 (by simp [quboStages])
    exact ⟨c, rfl, hsize, hsize ▸ hrefused⟩

/-- Without stages a single value for three variables is accepted. -/
theorem rationing_accepts_single_value :
    ∃ c, convert rationing [] = .ok c ∧ c.problem.size = 3 ∧ c.interpret [1] = .ok [1] :=
  ⟨⟨rationing, []⟩, rfl, rfl, rfl⟩

end QuboReduction

import QuboReduction.Pipeline
import QuboReduction.Proofs.Assignment

/-!
# Taking vectors back

A record whose mappings fit to its sizes takes every vector of the right length back, and a list of
records does if each one starts from the size at which the one before it ends.

## Main definitions

* `QuboReduction.Record.WellShaped` — the mappings of a record fit to its sizes.
* `QuboReduction.Record.back`, `QuboReduction.Record.backAll` — a vector taken back.
* `QuboReduction.Record.Linked` — records that fit to each other.
* `QuboReduction.Record.InPlace` — records that keep all variables in their places.

## Main results

* `QuboReduction.Record.interpretAll_eq` — linked records take every vector of their last size back.
* `QuboReduction.Record.back_of_keepAll` — what a stage does that only adds variables.
* `QuboReduction.Record.interpretAll_of_inPlace` — what stages do that add none.
-/

namespace QuboReduction

namespace Record

variable {α : Type} [Scalar α] {r : Record α} {records : List (Record α)} {t : List α}

/-- There is one mapping for each variable before the stage, and mappings refer to variables after
the stage only. -/
structure WellShaped (r : Record α) : Prop where
  /-- One mapping for each variable before the stage. -/
  length_mappings : r.mappings.length = r.sourceSize
  /-- Mappings refer to variables after the stage. -/
  inRange : r.inRange = true

/-- A vector over the variables after a stage taken back, whatever its length is. -/
def back (r : Record α) (t : List α) : List α := r.mappings.map fun m => m.apply (valueAt t)

/-- A vector taken back through records, the last one first. -/
def backAll (records : List (Record α)) (t : List α) : List α := records.foldr back t

/-- Records that lead from `n` variables to `m` variables, each one starting from the number at
which the one before it ends. -/
def Linked (n : Nat) : List (Record α) → Nat → Prop
  | [], m => n = m
  | r :: rest, m => r.sourceSize = n ∧ r.WellShaped ∧ Linked r.targetSize rest m

@[simp] theorem backAll_nil (t : List α) : backAll [] t = t := rfl

@[simp] theorem backAll_cons (r : Record α) (records : List (Record α)) (t : List α) :
    backAll (r :: records) t = r.back (backAll records t) := rfl

@[simp] theorem length_back (r : Record α) (t : List α) :
    (r.back t).length = r.mappings.length := by
  simp [back]

theorem Linked.length_backAll {n m : Nat} (h : Linked n records m) (ht : t.length = m) :
    (backAll records t).length = n := by
  cases records with
  | nil =>
    rw [backAll_nil, ht]
    exact h.symm
  | cons r records =>
    rw [backAll_cons, length_back, h.2.1.length_mappings]
    exact h.1

theorem WellShaped.interpret_eq (h : r.WellShaped) (ht : t.length = r.targetSize) (position : Nat) :
    r.interpret position t = .ok (r.back t) := by
  simp [interpret, ht, h.length_mappings, h.inRange, back]

omit [Scalar α] in
private theorem Linked.checkLinks_eq {n m : Nat} (h : Linked n records m) (position : Nat) :
    checkLinks position records = .ok () := by
  induction records generalizing n position with
  | nil => rfl
  | cons r records ih =>
    cases records with
    | nil => rfl
    | cons s records =>
      have hsize : r.targetSize = s.sourceSize := h.2.2.1.symm
      simp only [checkLinks, hsize, ne_eq, not_true_eq_false, if_false]
      exact ih h.2.2 (position + 1)

private theorem Linked.interpretFrom_eq {n m : Nat} (h : Linked n records m) (ht : t.length = m)
    (position : Nat) : interpretFrom position records t = .ok (backAll records t) := by
  induction records generalizing n position with
  | nil => rfl
  | cons r records ih =>
    rw [interpretFrom, ih h.2.2 (position + 1), ok_bind, backAll_cons]
    exact h.2.1.interpret_eq (h.2.2.length_backAll ht) position

/-- **Interpretation succeeds.** Linked records take every vector of their last size back. -/
theorem Linked.interpretAll_eq {n m : Nat} (h : Linked n records m) (ht : t.length = m) :
    interpretAll records t = .ok (backAll records t) := by
  rw [interpretAll, h.checkLinks_eq 0, ok_bind, h.interpretFrom_eq ht 0]

private theorem Linked.interpretFrom_error {n m : Nat} (h : Linked n records m)
    (hne : records ≠ []) (ht : t.length ≠ m) (position : Nat) :
    interpretFrom position records t =
      .error (.mismatch (position + (records.length - 1)) m t.length) := by
  induction records generalizing n position with
  | nil => contradiction
  | cons r records ih =>
    cases records with
    | nil =>
      have hm : r.targetSize = m := h.2.2
      simp [interpretFrom, ok_bind, interpret, hm, ht]
    | cons s records =>
      rw [interpretFrom, ih h.2.2 (by simp) (position + 1), error_bind]
      simp only [List.length_cons, Nat.add_sub_cancel]
      congr 2
      omega

/-- **Interpretation is refused** for a vector of another size, at the last record. -/
theorem Linked.interpretAll_error {n m : Nat} (h : Linked n records m) (hne : records ≠ [])
    (ht : t.length ≠ m) :
    interpretAll records t = .error (.mismatch (records.length - 1) m t.length) := by
  rw [interpretAll, h.checkLinks_eq 0, ok_bind, h.interpretFrom_error hne ht 0, Nat.zero_add]

omit [Scalar α] in
theorem Linked.append {n k m : Nat} {before after : List (Record α)} (hbefore : Linked n before k)
    (hafter : Linked k after m) : Linked n (before ++ after) m := by
  induction before generalizing n with
  | nil =>
    have hn : n = k := hbefore
    rwa [hn]
  | cons r before ih => exact ⟨hbefore.1, hbefore.2.1, ih hbefore.2.2⟩

theorem backAll_append (before after : List (Record α)) (t : List α) :
    backAll (before ++ after) t = backAll before (backAll after t) :=
  List.foldr_append

theorem interpretObjectiveAll_append (before after : List (Record α)) (value : α) :
    interpretObjectiveAll (before ++ after) value =
      interpretObjectiveAll before (interpretObjectiveAll after value) :=
  List.foldr_append

/-- Objective values stay if no stage negates the objective. -/
theorem interpretObjectiveAll_eq (h : ∀ r ∈ records, r.negatesObjective = false) (value : α) :
    interpretObjectiveAll records value = value := by
  induction records with
  | nil => rfl
  | cons r records ih =>
    obtain ⟨hr, hrecords⟩ := List.forall_mem_cons.mp h
    rw [interpretObjectiveAll, List.foldr_cons, interpretObjective, hr]
    exact ih hrecords

/-! ### Variables that stay in their places -/

/-- The mappings that keep variables in their places forget what comes after them. -/
theorem back_of_keepAll {n : Nat} (hr : r.mappings = keepAll n) (ht : n ≤ t.length) :
    r.back t = t.take n := by
  rw [back, hr, keepAll, List.map_map]
  refine List.ext_getElem (by simp [ht]) fun i hi hi' => ?_
  simp only [List.length_map, List.length_range] at hi
  simp only [List.getElem_map, List.getElem_range, Function.comp_apply, Mapping.apply,
    List.getElem_take]
  exact valueAt_of_lt (Nat.lt_of_lt_of_le hi ht)

omit [Scalar α] in
theorem wellShaped_of_keepAll {n : Nat} (hr : r.mappings = keepAll n) (hn : r.sourceSize = n)
    (hle : n ≤ r.targetSize) : r.WellShaped where
  length_mappings := by simp [hr, keepAll, hn]
  inRange := by
    rw [inRange, hr, keepAll, List.all_map, List.all_eq_true]
    intro i hi
    simpa [Mapping.indices] using Nat.lt_of_lt_of_le (List.mem_range.mp hi) hle

omit [Scalar α] in
theorem wellShaped_identity (stage : StageKind) (n : Nat) :
    (identity stage n : Record α).WellShaped :=
  wellShaped_of_keepAll rfl rfl (Nat.le_refl n)

/-- A record that keeps all variables in their places takes a vector back to itself. -/
theorem back_of_keepAll_eq {n : Nat} (hr : r.mappings = keepAll n)
    (ht : t.length = n) : r.back t = t := by
  rw [back_of_keepAll hr ht.ge, ← ht, List.take_length]

/-- A record that keeps `n` variables in their places and adds none. -/
structure InPlace (r : Record α) (n : Nat) : Prop where
  /-- There are `n` variables before the stage. -/
  sourceSize_eq : r.sourceSize = n
  /-- There are `n` variables after the stage. -/
  targetSize_eq : r.targetSize = n
  /-- Each variable is the one at its place. -/
  mappings_eq : r.mappings = keepAll n

omit [Scalar α] in
theorem linked_of_inPlace {n : Nat} (h : ∀ r ∈ records, r.InPlace n) : Linked n records n := by
  induction records with
  | nil => rfl
  | cons r records ih =>
    obtain ⟨hr, hrecords⟩ := List.forall_mem_cons.mp h
    refine ⟨hr.sourceSize_eq, ?_, hr.targetSize_eq.symm ▸ ih hrecords⟩
    exact wellShaped_of_keepAll hr.mappings_eq hr.sourceSize_eq hr.targetSize_eq.ge

theorem backAll_of_inPlace (h : ∀ r ∈ records, r.InPlace t.length) : backAll records t = t := by
  induction records with
  | nil => rfl
  | cons r records ih =>
    obtain ⟨hr, hrecords⟩ := List.forall_mem_cons.mp h
    rw [backAll_cons, ih hrecords, back_of_keepAll_eq hr.mappings_eq rfl]

/-- Records that keep all variables in their places take every vector back to itself. -/
theorem interpretAll_of_inPlace (h : ∀ r ∈ records, r.InPlace t.length) :
    interpretAll records t = .ok t := by
  rw [(linked_of_inPlace h).interpretAll_eq rfl, backAll_of_inPlace h]

end Record

/-! ### Conversions -/

section Conversions

variable {α : Type} [Scalar α] {p : Problem α} {stage : Stage α} {stages : List (Stage α)}
  {c : Conversion α} {e : ConversionError α}

theorem runStages_of_convert (h : convert p stages = .ok c) : runStages p stages = .ok c := by
  obtain ⟨_, -, h⟩ := bind_eq_ok.mp h
  exact h

theorem runStages_cons_ok (h : runStages p (stage :: stages) = .ok c) :
    ∃ q r c', stage.apply p = .ok (q, r) ∧ runStages q stages = .ok c' ∧
      c = ⟨c'.problem, r :: c'.records⟩ := by
  obtain ⟨⟨q, r⟩, hq, h⟩ := bind_eq_ok.mp h
  obtain ⟨c', hc, h⟩ := bind_eq_ok.mp h
  exact ⟨q, r, c', hq, hc, (pure_eq_ok.mp h).symm⟩

theorem runStages_cons_error (h : runStages p (stage :: stages) = .error e) :
    stage.apply p = .error e ∨
      ∃ q r, stage.apply p = .ok (q, r) ∧ runStages q stages = .error e := by
  rcases bind_eq_error.mp h with h | ⟨⟨q, r⟩, hq, h⟩
  · exact Or.inl h
  · rcases bind_eq_error.mp h with h | ⟨c, -, h⟩
    · exact Or.inr ⟨q, r, hq, h⟩
    · exact absurd h pure_ne_error

/-- A run of stages in two parts. -/
theorem runStages_append (before after : List (Stage α)) :
    runStages p (before ++ after) = (do
      let c ← runStages p before
      let d ← runStages c.problem after
      pure ⟨d.problem, c.records ++ d.records⟩) := by
  induction before generalizing p with
  | nil => simp [runStages, ok_bind]
  | cons s before ih => simp only [List.cons_append, runStages, ih, bind_assoc, pure_bind]

end Conversions

end QuboReduction

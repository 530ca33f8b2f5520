import QuboReduction.Document.Pipeline
import QuboReduction.Proofs.Documents
import QuboReduction.Proofs.FactorChecks
import QuboReduction.Scalar.Double

/-!
# Pipelines read back

Every pipeline can be read back from its document, but a penalty factor that is not a finite number
is `null` there, as a factor that is not given is, and so is estimated afterwards. Such a factor is
invalid. Therefore the pipeline that is read back converts every problem as before, unless the
factor that conversion used to be refused for is not a finite number; then it is refused for another
factor, or not for a factor at all.

## Main definitions

* `QuboReduction.Stage.documented` — what a document keeps of a stage.

## Main results

* `QuboReduction.Stage.listOfJson_listToJson` — what is read back of a pipeline.
* `QuboReduction.convert_listOfJson_eq_iff` — when a pipeline that is read back converts as before.
-/

namespace QuboReduction

variable {α : Type} [Scalar α]

/-! ### What a document keeps of a stage -/

namespace Stage

omit [Scalar α] in
theorem ofKind_factor?_kind (s : Stage α) : ofKind s.factor? s.kind = s := by cases s <;> rfl

omit [Scalar α] in
theorem factor?_eq_none {s : Stage α} (h : s.kind.usesFactor = false) : s.factor? = none := by
  cases s <;> first | rfl | contradiction

omit [Scalar α] in
theorem factor?_ofKind_kind {s : Stage α} {factor : Option α}
    (h : s.factor? = none → factor = none) : (ofKind factor s.kind).factor? = factor := by
  cases s <;> first | rfl | exact (h rfl).symm

/-- A stage as it is in a document, where a factor that is not a finite number is not given. -/
def documented (s : Stage α) : Stage α := ofKind (s.factor?.filter Scalar.isFinite) s.kind

theorem factor?_documented (s : Stage α) :
    s.documented.factor? = s.factor?.filter Scalar.isFinite :=
  factor?_ofKind_kind fun h => by rw [h]; rfl

theorem documented_eq_self {s : Stage α} (h : ∀ f, s.factor? = some f → Scalar.isFinite f = true) :
    s.documented = s := by
  have hkept : s.factor?.filter Scalar.isFinite = s.factor? := by
    cases hf : s.factor? with
    | none => rfl
    | some f => rw [Option.filter_some, if_pos (h f hf)]
  rw [documented, hkept, ofKind_factor?_kind]

theorem factorOfJson_factorToJson (factor : Option α) :
    factorOfJson (factorToJson factor) = .ok (factor.filter Scalar.isFinite) := by
  cases factor with
  | none => rfl
  | some f =>
    cases hf : Scalar.isFinite f <;>
      simp [factorToJson, Json.number, factorOfJson, Json.toScalar, Option.filter_some, hf]

theorem fieldsAreBounded_factor (factor : Option α) :
    fieldsAreBounded nestingLimit [("penalty", factorToJson factor)] = true := by
  cases factor with
  | none => rfl
  | some f =>
    cases hf : Scalar.isFinite f <;>
      simp [fieldsAreBounded, factorToJson, Json.number, isBounded, hf]

omit [Scalar α] in
theorem kindOfName_toJson (k : StageKind) : kindOfName (k.toJson : Json α) = .ok k := by
  cases k <;> rfl

theorem ofJson_toJson (s : Stage α) : ofJson s.toJson = .ok s.documented := by
  cases huses : s.kind.usesFactor with
  | false =>
    have hjson : s.toJson = .obj [("stage", s.kind.toJson)] := by simp [toJson, huses]
    have hfactor : s.documented = ofKind none s.kind := by
      rw [documented, factor?_eq_none huses, Option.filter_none]
    have hkind : Json.member? "stage" [("stage", (s.kind.toJson : Json α))] =
        .ok (some s.kind.toJson) := rfl
    simp only [hjson, ofJson, hkind, ok_bind, Json.required, kindOfName_toJson, huses, hfactor]
    rfl
  | true =>
    have hjson : s.toJson =
        .obj [("stage", s.kind.toJson), ("penalty", factorToJson s.factor?)] := by
      simp [toJson, huses]
    have hkind : Json.member? "stage"
        [("stage", s.kind.toJson), ("penalty", factorToJson s.factor?)] =
          .ok (some s.kind.toJson) := rfl
    have hothers : [("stage", s.kind.toJson), ("penalty", factorToJson s.factor?)].filter
        (fun f => f.1 != "stage") = [("penalty", factorToJson s.factor?)] := rfl
    have hpenalty : Json.member? "penalty" [("penalty", factorToJson s.factor?)] =
        .ok (some (factorToJson s.factor?)) := rfl
    simp only [hjson, ofJson, hkind, hothers, hpenalty, fieldsAreBounded_factor, ok_bind,
      Json.required, Json.optional, kindOfName_toJson, huses, factorOfJson_factorToJson]
    rfl

/-- **Pipelines are read back** up to the factors that a document has no number for. -/
theorem listOfJson_listToJson (stages : List (Stage α)) :
    listOfJson (listToJson stages) = .ok (stages.map documented) := by
  have hmembers : (listToJson stages).members ["converters"] =
      .ok [some (.arr (stages.map toJson))] := Json.members_obj (by simp)
  have hstages : (Json.arr (stages.map toJson)).toList ofJson = .ok (stages.map documented) :=
    mapM_map_eq_ok fun s _ => ofJson_toJson s
  simp only [listOfJson, hmembers, ok_bind, Json.required, hstages]

end Stage

/-! ### Conversion by a pipeline that is read back -/

namespace Stage

variable {s : Stage α} {stages : List (Stage α)}

theorem documented_of_invalidFactor?_eq_none (h : s.invalidFactor? = none) : s.documented = s :=
  documented_eq_self fun _ hf =>
    (Bool.and_eq_true_iff.mp (isFinite_of_invalidFactor?_eq_none h hf)).1

theorem map_documented_of_valid (h : stages.findSome? invalidFactor? = none) :
    stages.map documented = stages :=
  List.map_congr_left (fun s hs =>
    documented_of_invalidFactor?_eq_none (List.findSome?_eq_none_iff.mp h s hs)) |>.trans
      (List.map_id _)

/-- A document keeps an invalid factor exactly when it is a finite number. -/
theorem invalidFactor?_documented (s : Stage α) :
    s.documented.invalidFactor? = s.invalidFactor?.filter Scalar.isFinite := by
  rw [invalidFactor?, factor?_documented, invalidFactor?, Option.filter_filter,
    Option.filter_filter]
  simp only [Bool.and_comm]

/-- The first invalid factor of a pipeline that is read back is a finite number. -/
theorem isFinite_of_findSome?_documented {f : α}
    (h : (stages.map documented).findSome? invalidFactor? = some f) :
    Scalar.isFinite f = true := by
  obtain ⟨s, hs, hf⟩ := List.exists_of_findSome?_eq_some h
  obtain ⟨s, -, rfl⟩ := List.mem_map.mp hs
  rw [invalidFactor?_documented, Option.filter_eq_some_iff] at hf
  exact hf.2

/-- The first invalid factor of a pipeline is read back if it is a finite number. -/
theorem findSome?_documented {f : α} (h : stages.findSome? invalidFactor? = some f)
    (hf : Scalar.isFinite f = true) :
    (stages.map documented).findSome? invalidFactor? = some f := by
  induction stages with
  | nil => contradiction
  | cons s stages ih =>
    rw [List.findSome?_cons] at h
    rw [List.map_cons, List.findSome?_cons, invalidFactor?_documented]
    cases hs : s.invalidFactor? with
    | none =>
      rw [hs] at h
      exact ih h
    | some g =>
      rw [hs] at h
      obtain rfl := Option.some.inj h
      rw [Option.filter_some, if_pos hf]

end Stage

/-- **Conversion by a pipeline that is read back.** Every pipeline is read back from its document.
What is read converts a problem, or is refused, as the pipeline itself, unless that is refused for a
factor that is not a finite number; then the outcome is always another one. -/
theorem convert_listOfJson_eq_iff (stages : List (Stage α)) :
    ∃ restored, Stage.listOfJson (Stage.listToJson stages) = .ok restored ∧
      ∀ p, convert p restored = convert p stages ↔
        ∀ f, convert p stages = .error (.invalidPenalty f) → Scalar.isFinite f = true := by
  refine ⟨_, Stage.listOfJson_listToJson stages, fun p => ⟨fun h f hf => ?_, fun h => ?_⟩⟩
  · rw [← h, convert_eq_invalidPenalty_iff] at hf
    exact Stage.isFinite_of_findSome?_documented hf
  · cases hfirst : stages.findSome? Stage.invalidFactor? with
    | none => rw [Stage.map_documented_of_valid hfirst]
    | some f =>
      have hrefused := convert_eq_invalidPenalty_iff (p := p).mpr hfirst
      have hrestored := Stage.findSome?_documented hfirst (h f hrefused)
      rw [hrefused, convert_eq_invalidPenalty_iff.mpr hrestored]

/-- Two binary variables of which exactly one is to be chosen. -/
def pairing : Problem Float where
  name := "pairing"
  vars := [⟨"x", .binary, 0⟩, ⟨"y", .binary, 1⟩]
  objective := ⟨.minimize, 0, Terms.ofList [(0, 1), (1, 2)], Terms.empty⟩
  constraints := [.ofLinear "one" (Terms.ofList [(0, 1), (1, 1)]) .eq 1]

/-- A factor that is not a number is refused, but the pipeline that is read back estimates the
factor and converts. -/
theorem nan_factor_not_read_back :
    let stages : List (Stage Float) := [.linearEqualityToPenalty (some (0.0 / 0.0))]
    let restored : List (Stage Float) := [.linearEqualityToPenalty none]
    Stage.listOfJson (Stage.listToJson stages) = .ok restored ∧
      convert pairing stages = .error (.invalidPenalty (0.0 / 0.0)) ∧
        (convert pairing restored).isOk = true := by
  refine ⟨?_, convert_eq_invalidPenalty_iff.mpr ?_, by decide +kernel⟩
  · have hlost : (some (0.0 / 0.0 : Float)).filter Scalar.isFinite = none := by decide +kernel
    rw [Stage.listOfJson_listToJson, List.map_singleton, Stage.documented, Stage.factor?, hlost]
    rfl
  · decide +kernel

end QuboReduction

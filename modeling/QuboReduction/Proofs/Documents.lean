import Mathlib.Tactic.MkIffOfInductiveProp
import QuboReduction.Document.Conversion
import QuboReduction.Proofs.WellFormed

/-!
# Reading what was written

What is written as a form is read back as it was, as far as documents have numbers for it: scalars
have to be finite, bounds have to be integers of 64 bits with a sign, and indices and lengths
natural numbers of 64 bits. Each reader takes apart what its writer has put together; an expression
is collected again from its own terms, and a problem is built again from its own parts.

## Main definitions

* `QuboReduction.Terms.AllFinite`, `QuboReduction.Problem.AllFinite`,
  `QuboReduction.Conversion.AllFinite` — all scalars are finite numbers.
* `QuboReduction.Problem.InWords`, `QuboReduction.Conversion.InWords` — all bounds, indices and
  lengths are integers of 64 bits.

## Main results

* `QuboReduction.Json.members_obj` — the fields of a structure that is written as an object.
* `QuboReduction.Problem.ofJson_toJson` — problems.
* `QuboReduction.Record.ofJson_toJson`, `QuboReduction.Conversion.ofJson_toJson` — records and
  conversions.
-/

namespace QuboReduction

variable {α : Type} [Scalar α]

/-! ### Simple values -/

/-- Integers of 64 bits with a sign. -/
def IsWord (n : Int) : Prop := Int64.minValue.toInt ≤ n ∧ n ≤ Int64.maxValue.toInt

theorem isWord_iff {n : Int} : IsWord n ↔ -2 ^ 63 ≤ n ∧ n < 2 ^ 63 := by
  rw [IsWord, show Int64.minValue.toInt = -2 ^ 63 by decide,
    show Int64.maxValue.toInt = 2 ^ 63 - 1 by decide, Int.le_sub_one_iff]

namespace Json

variable {β : Type}

theorem toScalar_number {x : α} (h : Scalar.isFinite x = true) : (number x).toScalar = .ok x := by
  simp [number, toScalar, h]

omit [Scalar α] in
theorem toInteger_int {n : Int} (h : IsWord n) : (int n : Json α).toInteger = .ok n := if_pos h

omit [Scalar α] in
theorem toIndex_index {n : Nat} (h : n < UInt64.size) : (index n : Json α).toIndex = .ok n := by
  simp [index, toIndex, h]

omit [Scalar α] in
/-- A list is read back when its elements are. -/
theorem toList_map {read : Json α → Except DocumentError β} {write : β → Json α} {l : List β}
    (h : ∀ b ∈ l, read (write b) = .ok b) : (arr (l.map write)).toList read = .ok l :=
  (mapM_map_eq_ok (k := id) h).trans (by rw [List.map_id])

/-! ### Structures and alternatives -/

omit [Scalar α] in
private theorem filter_name_eq {fields : List (String × Json α)} {f : String × Json α}
    (hnodup : (fields.map Prod.fst).Nodup) (hf : f ∈ fields) :
    (fields.filter fun g => g.1 == f.1) = [f] := by
  induction fields with
  | nil => contradiction
  | cons g fields ih =>
    obtain ⟨hfirst, hrest⟩ := List.nodup_cons.mp hnodup
    rcases List.mem_cons.mp hf with rfl | hf
    · have hothers : ∀ g ∈ fields, g.1 ≠ f.1 := fun g hg hname =>
        hfirst (hname ▸ List.mem_map_of_mem hg)
      simpa using hothers
    · have hname : g.1 ≠ f.1 := fun hname => hfirst (hname ▸ List.mem_map_of_mem hf)
      rw [List.filter_cons_of_neg (by simpa using hname), ih hrest hf]

omit [Scalar α] in
/-- **The fields of a structure** are found in an object that has just these fields. -/
theorem members_obj {fields : List (String × Json α)} (h : (fields.map Prod.fst).Nodup) :
    (obj fields).members (fields.map Prod.fst) = .ok (fields.map fun f => some f.2) :=
  mapM_map_eq_ok fun f hf => by rw [member?, filter_name_eq h hf]

omit [Scalar α] in
theorem choose_str {choices : List (String × β)} {name : String} {b : β}
    (h : choices.lookup name = some b) : choose choices (str name : Json α) = .ok b := by
  simp only [choose, alternative, noContent, ok_bind, h]
  rfl

end Json

/-! ### Expressions -/

/-- All coefficients are finite numbers. -/
def Terms.AllFinite {κ : Type} [Ord κ] (e : Terms κ α) : Prop :=
  ∀ t ∈ e.toList, Scalar.isFinite t.2 = true

instance {κ : Type} [Ord κ] (e : Terms κ α) : Decidable e.AllFinite :=
  inferInstanceAs (Decidable (∀ t ∈ e.toList, Scalar.isFinite t.2 = true))

theorem Linear.termsOfJson_termsToJson {terms : List (Nat × α)}
    (hfinite : ∀ t ∈ terms, Scalar.isFinite t.2 = true) (hwords : ∀ t ∈ terms, t.1 < UInt64.size) :
    termsOfJson (termsToJson terms) = .ok terms := by
  refine Json.toList_map fun t ht => ?_
  simp only [Json.toPair, Json.toIndex_index (hwords t ht), Json.toScalar_number (hfinite t ht),
    ok_bind]
  rfl

theorem Linear.ofJson_toJson {e : Linear α} (hfinite : e.AllFinite)
    (hwords : e.Below UInt64.size) : ofJson e.toJson = .ok e := by
  rw [ofJson, toJson, termsOfJson_termsToJson hfinite hwords]
  exact congrArg Except.ok e.ofList_toList

theorem Quadratic.ofJson_toJson {e : Quadratic α} (hfinite : e.AllFinite)
    (hwords : e.Below UInt64.size) : ofJson e.toJson = .ok e := by
  have hterms : Json.toList (Json.toTriple Json.toIndex Json.toIndex Json.toScalar) e.toJson =
      .ok (e.toList.map fun t => (t.1.low, t.1.high, t.2)) := by
    refine mapM_map_eq_ok fun t ht => ?_
    have hhigh : t.1.high < UInt64.size := hwords t ht
    have hlow : t.1.low < UInt64.size := Nat.lt_of_le_of_lt t.1.low_le_high hhigh
    simp only [Json.toTriple, Json.toIndex_index hlow, Json.toIndex_index hhigh,
      Json.toScalar_number (hfinite t ht), ok_bind]
    rfl
  rw [ofJson, hterms]
  exact congrArg Except.ok e.ofProducts_toList

/-! ### Objectives and constraints -/

/-- All scalars of a polynomial are finite numbers. -/
@[mk_iff]
structure Polynomial.AllFinite (f : Polynomial α) : Prop where
  /-- The constant is finite. -/
  constant : Scalar.isFinite f.constant = true
  /-- The coefficients of degree one are finite. -/
  linear : f.linear.AllFinite
  /-- The coefficients of degree two are finite. -/
  quadratic : f.quadratic.AllFinite

instance (f : Polynomial α) : Decidable f.AllFinite :=
  decidable_of_iff _ (Polynomial.allFinite_iff f).symm

/-- All scalars of a constraint are finite numbers. -/
@[mk_iff]
structure Constraint.AllFinite (c : Constraint α) : Prop where
  /-- The coefficients of degree one are finite. -/
  linear : c.linear.AllFinite
  /-- The coefficients of degree two are finite. -/
  quadratic : c.quadratic.AllFinite
  /-- The right-hand side is finite. -/
  rhs : Scalar.isFinite c.rhs = true

instance (c : Constraint α) : Decidable c.AllFinite :=
  decidable_of_iff _ (Constraint.allFinite_iff c).symm

omit [Scalar α] in
theorem Sense.ofJson_code (s : Sense) : Sense.ofJson (.str s.code : Json α) = .ok s :=
  Json.choose_str (by cases s <;> rfl)

omit [Scalar α] in
theorem Relation.ofJson_symbol (r : Relation) : Relation.ofJson (.str r.symbol : Json α) = .ok r :=
  Json.choose_str (by cases r <;> rfl)

theorem Objective.members_toJson (o : Objective α) :
    o.toJson.members ["sense", "constant", "linear", "quadratic"] =
      .ok [some (.str o.sense.code), some (.number o.polynomial.constant),
        some o.polynomial.linear.toJson, some o.polynomial.quadratic.toJson] :=
  Json.members_obj (by simp)

theorem Objective.ofJson_toJson {o : Objective α} (hfinite : o.polynomial.AllFinite)
    (hwords : o.polynomial.Below UInt64.size) : ofJson o.toJson = .ok o := by
  simp only [ofJson, members_toJson, ok_bind, Json.required, Json.optional, Sense.ofJson_code,
    Json.toScalar_number hfinite.constant, Linear.ofJson_toJson hfinite.linear hwords.1,
    Quadratic.ofJson_toJson hfinite.quadratic hwords.2]
  rfl

theorem Constraint.members_toJson (c : Constraint α) :
    c.toJson.members ["name", "linear", "quadratic", "sense", "rhs"] =
      .ok [some (.str c.name), some c.linear.toJson, some c.quadratic.toJson,
        some (.str c.relation.symbol), some (.number c.rhs)] :=
  Json.members_obj (by simp)

theorem Constraint.ofJson_toJson {c : Constraint α} (hfinite : c.AllFinite)
    (hwords : c.Below UInt64.size) : ofJson c.toJson = .ok c := by
  simp only [ofJson, members_toJson, ok_bind, Json.required, Json.optional, Json.toText,
    Relation.ofJson_symbol, Json.toScalar_number hfinite.rhs,
    Linear.ofJson_toJson hfinite.linear hwords.1,
    Quadratic.ofJson_toJson hfinite.quadratic hwords.2]
  rfl

/-! ### Variables -/

namespace Domain

/-- The bounds are integers of 64 bits. -/
def InWords (d : Domain) : Prop := IsWord d.lower ∧ IsWord d.upper

omit [Scalar α] in
theorem ofJson_toJson {d : Domain} (h : d.InWords) : ofJson (d.toJson : Json α) = .ok d := by
  cases d with
  | binary => rfl
  | integer lower upper =>
    have hmembers : (Json.obj [("lower", .int lower), ("upper", .int upper)] : Json α).members
        ["lower", "upper"] = .ok [some (.int lower), some (.int upper)] :=
      Json.members_obj (by simp)
    have hlower : (Json.int lower : Json α).toInteger = .ok lower := Json.toInteger_int h.1
    have hupper : (Json.int upper : Json α).toInteger = .ok upper := Json.toInteger_int h.2
    simp only [ofJson, toJson, Json.alternative, ok_bind, hmembers, Json.required, hlower, hupper]
    rfl

omit [Scalar α] in
theorem declarationOfJson_declarationToJson {d : String × Domain} (h : d.2.InWords) :
    declarationOfJson (declarationToJson d : Json α) = .ok d := by
  have hmembers : (declarationToJson d : Json α).members ["name", "domain"] =
      .ok [some (.str d.1), some d.2.toJson] := Json.members_obj (by simp)
  simp only [declarationOfJson, hmembers, ok_bind, Json.required, Json.toText, ofJson_toJson h]
  rfl

end Domain

/-! ### Problems -/

namespace Problem

variable {p : Problem α}

/-- All scalars of a problem are finite numbers. -/
@[mk_iff]
structure AllFinite (p : Problem α) : Prop where
  /-- Those of the objective are finite. -/
  objective : p.objective.polynomial.AllFinite
  /-- Those of the constraints are finite. -/
  constraints : ∀ c ∈ p.constraints, c.AllFinite

instance (p : Problem α) : Decidable p.AllFinite := decidable_of_iff _ (allFinite_iff p).symm

/-- Bounds and indices fit into 64 bits, as they do wherever they are kept as integers of 64
bits. -/
structure InWords (p : Problem α) : Prop where
  /-- The bounds are integers of 64 bits with a sign. -/
  vars : ∀ v ∈ p.vars, v.domain.InWords
  /-- The indices in the objective are natural numbers of 64 bits. -/
  objective : p.objective.polynomial.Below UInt64.size
  /-- The indices in the constraints are natural numbers of 64 bits. -/
  constraints : ∀ c ∈ p.constraints, c.Below UInt64.size

theorem members_toJson (p : Problem α) :
    p.toJson.members ["name", "variables", "objective", "constraints"] =
      .ok [some (.str p.name), some (.arr (p.declarations.map Domain.declarationToJson)),
        some p.objective.toJson, some (.arr (p.constraints.map Constraint.toJson))] :=
  Json.members_obj (by simp)

private theorem partsOfJson_toJson (hfinite : p.AllFinite) (hwords : p.InWords) :
    ProblemParts.ofJson p.toJson = .ok (.ofProblem p) := by
  have hdeclarations : (Json.arr (p.declarations.map Domain.declarationToJson) : Json α).toList
      Domain.declarationOfJson = .ok p.declarations := by
    refine Json.toList_map fun d hd => Domain.declarationOfJson_declarationToJson ?_
    obtain ⟨v, hv, rfl⟩ := List.mem_map.mp hd
    exact hwords.vars v hv
  have hconstraints : (Json.arr (p.constraints.map Constraint.toJson)).toList Constraint.ofJson =
      .ok p.constraints := Json.toList_map fun c hc =>
    Constraint.ofJson_toJson (hfinite.constraints c hc) (hwords.constraints c hc)
  simp only [ProblemParts.ofJson, members_toJson, ok_bind, Json.required, Json.optional,
    Json.toText, hdeclarations, Objective.ofJson_toJson hfinite.objective hwords.objective,
    hconstraints]
  rfl

/-- **Problems are read back** as they were written, each being built again from its parts. -/
theorem ofJson_toJson (hp : p.WellFormed) (hfinite : p.AllFinite) (hwords : p.InWords) :
    ofJson p.toJson = .ok p := by
  have hbuild : (ProblemParts.ofProblem p).build = .ok p := hp.assemble_eq
  simp only [ofJson, partsOfJson_toJson hfinite hwords, ok_bind, hbuild]
  rfl

end Problem

/-! ### Records -/

omit [Scalar α] in
theorem StageKind.ofJson_toJson (k : StageKind) : ofJson (k.toJson : Json α) = .ok k :=
  Json.choose_str (by cases k <;> rfl)

namespace Mapping

/-- All scalars of a mapping are finite numbers. -/
def AllFinite : Mapping α → Prop
  | identity _ => True
  | affine offset terms =>
    Scalar.isFinite offset = true ∧ ∀ t ∈ terms, Scalar.isFinite t.2 = true

instance : (m : Mapping α) → Decidable m.AllFinite
  | identity _ => isTrue trivial
  | affine offset terms => inferInstanceAs
      (Decidable (Scalar.isFinite offset = true ∧ ∀ t ∈ terms, Scalar.isFinite t.2 = true))

/-- The indices of a mapping are natural numbers of 64 bits. -/
def InWords (m : Mapping α) : Prop := ∀ i ∈ m.indices, i < UInt64.size

instance (m : Mapping α) : Decidable m.InWords :=
  inferInstanceAs (Decidable (∀ i ∈ m.indices, i < UInt64.size))

-- for any content: the bound on an index is not to be computed with when the reader is unfolded
private theorem ofJson_identity (content : Json α) :
    ofJson (.obj [("identity", content)]) = identity <$> content.toIndex := rfl

theorem ofJson_toJson {m : Mapping α} (hfinite : m.AllFinite) (hwords : m.InWords) :
    ofJson m.toJson = .ok m := by
  cases m with
  | identity i =>
    have hindex : (Json.index i : Json α).toIndex = .ok i :=
      Json.toIndex_index (hwords i List.mem_cons_self)
    rw [toJson, ofJson_identity, hindex]
    rfl
  | affine offset terms =>
    have hmembers : (Json.obj [("offset", .number offset), ("terms", Linear.termsToJson terms)] :
        Json α).members ["offset", "terms"] =
          .ok [some (.number offset), some (Linear.termsToJson terms)] := Json.members_obj (by simp)
    have hterms : Linear.termsOfJson (Linear.termsToJson terms) = .ok terms :=
      Linear.termsOfJson_termsToJson hfinite.2 fun t ht => hwords t.1 (List.mem_map_of_mem ht)
    simp only [ofJson, toJson, Json.alternative, ok_bind, hmembers, Json.required,
      Json.toScalar_number hfinite.1, hterms]
    rfl

end Mapping

namespace Record

variable {r : Record α}

/-- All scalars of a record are finite numbers. -/
def AllFinite (r : Record α) : Prop := ∀ m ∈ r.mappings, m.AllFinite

instance (r : Record α) : Decidable r.AllFinite :=
  inferInstanceAs (Decidable (∀ m ∈ r.mappings, m.AllFinite))

/-- Lengths and indices fit into 64 bits. -/
@[mk_iff]
structure InWords (r : Record α) : Prop where
  /-- The number of variables before the stage. -/
  sourceSize : r.sourceSize < UInt64.size
  /-- The number of variables after the stage. -/
  targetSize : r.targetSize < UInt64.size
  /-- The indices in mappings. -/
  mappings : ∀ m ∈ r.mappings, m.InWords
  /-- The indices of the variables that the stage introduced. -/
  auxiliary : ∀ i ∈ r.auxiliary, i < UInt64.size

instance (r : Record α) : Decidable r.InWords := decidable_of_iff _ (inWords_iff r).symm

/-- **Records are read back** as they were written, whatever they are. -/
theorem ofJson_toJson (hfinite : r.AllFinite) (hwords : r.InWords) : ofJson r.toJson = .ok r := by
  have hmembers : r.toJson.members
      ["stage", "source_len", "target_len", "mappings", "auxiliary", "objective"] =
      .ok [some r.stage.toJson, some (.index r.sourceSize), some (.index r.targetSize),
        some (.arr (r.mappings.map Mapping.toJson)), some (.arr (r.auxiliary.map Json.index)),
        some (.str (objectiveCode r.negatesObjective))] :=
    Json.members_obj (by simp)
  have hmappings : (Json.arr (r.mappings.map Mapping.toJson)).toList Mapping.ofJson =
      .ok r.mappings := Json.toList_map fun m hm =>
    Mapping.ofJson_toJson (hfinite m hm) (hwords.mappings m hm)
  have hauxiliary : (Json.arr (r.auxiliary.map Json.index) : Json α).toList Json.toIndex =
      .ok r.auxiliary := Json.toList_map fun i hi => Json.toIndex_index (hwords.auxiliary i hi)
  have hobjective : Json.choose [(objectiveCode false, false), (objectiveCode true, true)]
      (.str (objectiveCode r.negatesObjective) : Json α) = .ok r.negatesObjective :=
    Json.choose_str (by cases r.negatesObjective <;> rfl)
  simp only [ofJson, hmembers, ok_bind, Json.required, StageKind.ofJson_toJson,
    Json.toIndex_index hwords.sourceSize, Json.toIndex_index hwords.targetSize, hmappings,
    hauxiliary, hobjective]
  rfl

end Record

/-! ### Conversions -/

namespace Conversion

variable {c : Conversion α}

/-- All scalars of a conversion are finite numbers. -/
structure AllFinite (c : Conversion α) : Prop where
  /-- Those of the problem are finite. -/
  problem : c.problem.AllFinite
  /-- Those of the records are finite. -/
  records : ∀ r ∈ c.records, r.AllFinite

/-- Bounds, indices and lengths fit into 64 bits. -/
structure InWords (c : Conversion α) : Prop where
  /-- Those of the problem do. -/
  problem : c.problem.InWords
  /-- Those of the records do. -/
  records : ∀ r ∈ c.records, r.InWords

/-- **Conversions are read back** as they were written. -/
theorem ofJson_toJson (hp : c.problem.WellFormed) (hfinite : c.AllFinite) (hwords : c.InWords) :
    ofJson c.toJson = .ok c := by
  have hproblem := Problem.ofJson_toJson hp hfinite.problem hwords.problem
  have hrecords : (Json.arr (c.records.map Record.toJson)).toList Record.ofJson = .ok c.records :=
    Json.toList_map fun r hr => Record.ofJson_toJson (hfinite.records r hr) (hwords.records r hr)
  have hfirst : readField ⟨none, none⟩ ("problem", c.problem.toJson) =
      .ok ⟨some c.problem, none⟩ := by
    simp only [readField, hproblem, ok_bind, if_true]
    rfl
  have hsecond : readField ⟨some c.problem, none⟩
      ("records", .arr (c.records.map Record.toJson)) = .ok ⟨some c.problem, some c.records⟩ := by
    simp only [readField, hrecords, ok_bind, if_true]
    rfl
  simp only [ofJson, toJson, fieldsOf, ofFields, ok_bind, List.foldlM_cons, List.foldlM_nil, hfirst,
    hsecond]
  rfl

end Conversion

end QuboReduction

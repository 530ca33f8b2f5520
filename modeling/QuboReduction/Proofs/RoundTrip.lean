import QuboReduction.Proofs.Documents
import QuboReduction.Proofs.Reachable
import QuboReduction.Scalar.Double

/-!
# Normal forms of documents

A document may state one problem in many ways: fields in any order or left out, terms repeated or
with their factors exchanged, constraints without names. Reading it and writing the problem gives a
document of this problem from which nothing changes any more. Nothing is lost on the way because
readers refuse bounds and indices that do not fit into 64 bits, so whatever is read can be written
and read again, as long as no sum of repeated terms is too large to be a finite number.

## Main definitions

* `QuboReduction.Json.Gives` — what holds of every value that a reader gives.

## Main results

* `QuboReduction.Problem.InWords.of_assemble` — a problem is built without new bounds or indices.
* `QuboReduction.Problem.inWords_of_ofJson` — bounds and indices of a problem that is read.
* `QuboReduction.documents_read_back` — what is written is read back.
-/

namespace QuboReduction

variable {α : Type} [Scalar α]

/-! ### What readers give -/

namespace Json

variable {β γ δ : Type} {P : β → Prop} {Q : γ → Prop} {R : δ → Prop}
  {first : Json α → Except DocumentError β} {second : Json α → Except DocumentError γ}
  {third : Json α → Except DocumentError δ}

/-- Every value that a reader gives has a property. -/
def Gives (read : Json α → Except DocumentError β) (P : β → Prop) : Prop :=
  ∀ v b, read v = .ok b → P b

omit [Scalar α] in
theorem gives_toInteger : Gives (toInteger (α := α)) IsWord := by
  intro v n h
  cases v with
  | int m =>
    rw [toInteger] at h
    split at h
    · exact Except.ok.inj h ▸ ‹_›
    · contradiction
  | _ => contradiction

omit [Scalar α] in
theorem gives_toIndex : Gives (toIndex (α := α)) (· < UInt64.size) := by
  intro v n h
  cases v with
  | int m =>
    rw [toIndex] at h
    split at h
    · rename_i hm
      obtain rfl := Except.ok.inj h
      omega
    · contradiction
  | _ => contradiction

namespace Gives

omit [Scalar α] in
theorem toList (h : Gives first P) : Gives (Json.toList first) fun l => ∀ b ∈ l, P b := by
  intro v l hl b hb
  cases v with
  | arr items =>
    obtain ⟨w, -, hw⟩ := exists_of_mem_mapM hl hb
    exact h w b hw
  | _ => contradiction

omit [Scalar α] in
theorem toPair (h : Gives first P) :
    Gives (Json.toPair first second) fun b => P b.1 := by
  intro v b hb
  unfold Json.toPair at hb
  split at hb
  · obtain ⟨a, ha, hb⟩ := bind_eq_ok.mp hb
    obtain ⟨_, -, hb⟩ := bind_eq_ok.mp hb
    exact pure_eq_ok.mp hb ▸ h _ a ha
  · contradiction

omit [Scalar α] in
theorem toTriple (hfirst : Gives first P) (hsecond : Gives second Q) :
    Gives (Json.toTriple first second third) fun b => P b.1 ∧ Q b.2.1 := by
  intro v b hb
  unfold Json.toTriple at hb
  split at hb
  · obtain ⟨a, ha, hb⟩ := bind_eq_ok.mp hb
    obtain ⟨c, hc, hb⟩ := bind_eq_ok.mp hb
    obtain ⟨_, -, hb⟩ := bind_eq_ok.mp hb
    exact pure_eq_ok.mp hb ▸ ⟨hfirst _ a ha, hsecond _ c hc⟩
  · contradiction

omit [Scalar α] in
theorem of_required (h : Gives first P) {w : Option (Json α)} {b : β}
    (hb : required first w = .ok b) : P b := by
  cases w with
  | none => contradiction
  | some v => exact h v b hb

omit [Scalar α] in
theorem of_optional (h : Gives first P) {w : Option (Json α)} {b default : β} (hdefault : P default)
    (hb : optional default first w = .ok b) : P b := by
  cases w with
  | none => exact Except.ok.inj hb ▸ hdefault
  | some v => exact h v b hb

end Gives

end Json

/-! ### Indices and bounds that are read -/

theorem Linear.gives_ofJson : Json.Gives (ofJson (α := α)) fun e => e.Below UInt64.size := by
  intro v e h
  obtain ⟨terms, hterms, rfl⟩ := map_eq_ok.mp h
  exact Terms.Within.ofList (Json.gives_toIndex.toPair.toList v terms hterms)

theorem Quadratic.gives_ofJson : Json.Gives (ofJson (α := α)) fun e => e.Below UInt64.size := by
  intro v e h
  obtain ⟨terms, hterms, rfl⟩ := map_eq_ok.mp h
  have hindices := (Json.gives_toIndex.toTriple Json.gives_toIndex).toList v terms hterms
  refine Terms.Within.ofList fun t ht => ?_
  obtain ⟨u, hu, rfl⟩ := List.mem_map.mp ht
  exact max_lt (hindices u hu).1 (hindices u hu).2

theorem Objective.gives_ofJson :
    Json.Gives (ofJson (α := α)) fun o => o.polynomial.Below UInt64.size := by
  intro v o h
  obtain ⟨values, -, h⟩ := bind_eq_ok.mp h
  split at h
  · obtain ⟨sense, -, h⟩ := bind_eq_ok.mp h
    obtain ⟨constant, -, h⟩ := bind_eq_ok.mp h
    obtain ⟨linear, hlinear, h⟩ := bind_eq_ok.mp h
    obtain ⟨quadratic, hquadratic, h⟩ := bind_eq_ok.mp h
    exact pure_eq_ok.mp h ▸ ⟨Linear.gives_ofJson.of_optional Terms.within_empty hlinear,
      Quadratic.gives_ofJson.of_optional Terms.within_empty hquadratic⟩
  · contradiction

theorem Constraint.gives_ofJson : Json.Gives (ofJson (α := α)) fun c => c.Below UInt64.size := by
  intro v c h
  obtain ⟨values, -, h⟩ := bind_eq_ok.mp h
  split at h
  · obtain ⟨name, -, h⟩ := bind_eq_ok.mp h
    obtain ⟨linear, hlinear, h⟩ := bind_eq_ok.mp h
    obtain ⟨quadratic, hquadratic, h⟩ := bind_eq_ok.mp h
    obtain ⟨relation, -, h⟩ := bind_eq_ok.mp h
    obtain ⟨rhs, -, h⟩ := bind_eq_ok.mp h
    exact pure_eq_ok.mp h ▸ ⟨Linear.gives_ofJson.of_optional Terms.within_empty hlinear,
      Quadratic.gives_ofJson.of_optional Terms.within_empty hquadratic⟩
  · contradiction

namespace Domain

omit [Scalar α] in
theorem gives_ofJson : Json.Gives (ofJson (α := α)) InWords := by
  intro v d h
  obtain ⟨named, -, h⟩ := bind_eq_ok.mp h
  split at h
  · obtain ⟨_, -, h⟩ := bind_eq_ok.mp h
    rw [← pure_eq_ok.mp h]
    exact ⟨⟨by decide, by decide⟩, by decide, by decide⟩
  · obtain ⟨values, -, h⟩ := bind_eq_ok.mp h
    split at h
    · obtain ⟨lower, hlower, h⟩ := bind_eq_ok.mp h
      obtain ⟨upper, hupper, h⟩ := bind_eq_ok.mp h
      exact pure_eq_ok.mp h ▸
        ⟨Json.gives_toInteger.of_required hlower, Json.gives_toInteger.of_required hupper⟩
    · contradiction
  · contradiction

omit [Scalar α] in
theorem gives_declarationOfJson :
    Json.Gives (declarationOfJson (α := α)) fun d => d.2.InWords := by
  intro v d h
  obtain ⟨values, -, h⟩ := bind_eq_ok.mp h
  split at h
  · obtain ⟨name, -, h⟩ := bind_eq_ok.mp h
    obtain ⟨domain, hdomain, h⟩ := bind_eq_ok.mp h
    exact pure_eq_ok.mp h ▸ gives_ofJson.of_required hdomain
  · contradiction

end Domain

theorem ProblemParts.gives_ofJson : Json.Gives (ofJson (α := α)) fun parts =>
    (∀ d ∈ parts.declarations, d.2.InWords) ∧ parts.objective.polynomial.Below UInt64.size ∧
      ∀ c ∈ parts.constraints, c.Below UInt64.size := by
  intro v parts h
  obtain ⟨values, -, h⟩ := bind_eq_ok.mp h
  split at h
  · obtain ⟨name, -, h⟩ := bind_eq_ok.mp h
    obtain ⟨declarations, hdeclarations, h⟩ := bind_eq_ok.mp h
    obtain ⟨objective, hobjective, h⟩ := bind_eq_ok.mp h
    obtain ⟨constraints, hconstraints, h⟩ := bind_eq_ok.mp h
    exact pure_eq_ok.mp h ▸ ⟨Domain.gives_declarationOfJson.toList.of_required hdeclarations,
      Objective.gives_ofJson.of_optional Polynomial.below_zero hobjective,
      Constraint.gives_ofJson.toList.of_optional (by simp) hconstraints⟩
  · contradiction

namespace Problem

variable {p q : Problem α}

/-! ### Building keeps bounds and indices -/

theorem inWords_empty (name : String) : (empty name : Problem α).InWords :=
  ⟨by simp [empty], Polynomial.below_zero, by simp [empty]⟩

theorem InWords.of_addVariable (hp : p.InWords) {name : String} {domain : Domain} {index : Nat}
    (hdomain : domain.InWords) (h : p.addVariable name domain = .ok (q, index)) : q.InWords := by
  obtain ⟨-, -, rfl, -⟩ := addVariable_eq_ok_iff.mp h
  refine ⟨fun v hv => ?_, hp.objective, hp.constraints⟩
  rcases List.mem_append.mp hv with hv | hv
  · exact hp.vars v hv
  · rw [List.mem_singleton.mp hv]
    exact hdomain

theorem InWords.of_setObjective (hp : p.InWords) {o : Objective α}
    (ho : o.polynomial.Below UInt64.size) (h : p.setObjective o = .ok q) : q.InWords := by
  obtain ⟨-, rfl⟩ := setObjective_eq_ok_iff.mp h
  exact ⟨hp.vars, ho, hp.constraints⟩

theorem InWords.of_addConstraint (hp : p.InWords) {c : Constraint α} (hc : c.Below UInt64.size)
    (h : p.addConstraint c = .ok q) : q.InWords := by
  obtain ⟨-, -, rfl⟩ := addConstraint_eq_ok_iff.mp h
  refine ⟨hp.vars, hp.objective, fun d hd => ?_⟩
  rcases List.mem_append.mp hd with hd | hd
  · exact hp.constraints d hd
  · rw [List.mem_singleton.mp hd]
    exact hc

/-- A problem is built without other bounds and indices than those of its parts. -/
theorem InWords.of_assemble {name : String} {declarations : List (String × Domain)}
    {objective : Objective α} {constraints : List (Constraint α)}
    (hdeclarations : ∀ d ∈ declarations, d.2.InWords)
    (hobjective : objective.polynomial.Below UInt64.size)
    (hconstraints : ∀ c ∈ constraints, c.Below UInt64.size)
    (h : assemble name declarations objective constraints = .ok p) : p.InWords := by
  obtain ⟨p₁, h₁, h⟩ := bind_eq_ok.mp h
  obtain ⟨p₂, h₂, h₃⟩ := bind_eq_ok.mp h
  have hp₁ : p₁.InWords := by
    refine foldlM_ok_of_step (motive := fun _ p => p.InWords) (inWords_empty name) ?_ h₁
    intro _ d _ s s' hsplit hs hstep
    obtain ⟨⟨_, index⟩, hadd, rfl⟩ := map_eq_ok.mp hstep
    exact hs.of_addVariable (hdeclarations d (by simp [hsplit])) hadd
  refine foldlM_ok_of_step (motive := fun _ p => p.InWords)
    (hp₁.of_setObjective hobjective h₂) ?_ h₃
  intro _ c _ _ _ hsplit hs hstep
  exact hs.of_addConstraint (hconstraints c (by simp [hsplit])) hstep

/-- **Bounds and indices of a problem that is read** fit into 64 bits. -/
theorem inWords_of_ofJson {v : Json α} (h : ofJson v = .ok p) : p.InWords := by
  obtain ⟨parts, hparts, h⟩ := bind_eq_ok.mp h
  obtain ⟨hdeclarations, hobjective, hconstraints⟩ := ProblemParts.gives_ofJson v parts hparts
  split at h
  · rename_i hbuild
    obtain rfl := pure_eq_ok.mp h
    exact .of_assemble hdeclarations hobjective hconstraints hbuild
  · contradiction

end Problem

/-! ### Documents -/

/-- **What is written is read back.** A reachable problem, for whose bounds, indices and scalars
documents have numbers, is read back as it was written, and each name has the index of its variable,
by a search and by the table that is made of the problem.
A conversion is read back as it was written, whatever its records are, and so takes vectors back as
before. The document that is written for a problem that was read is a normal form: reading it gives
the same problem, and writing that gives the same document. -/
theorem documents_read_back :
    (∀ p : Problem α, p.Reachable → p.AllFinite → p.InWords →
      Problem.ofJson p.toJson = .ok p ∧
        ∀ name i,
          (p.variableIndex? name = some i ↔ ∃ v, p.variableAt? i = some v ∧ v.name = name) ∧
            ((Builder.of p).variableIndex? name = some i ↔
              ∃ v, p.variableAt? i = some v ∧ v.name = name)) ∧
    (∀ c : Conversion α, c.problem.Reachable → c.AllFinite → c.InWords →
      Conversion.ofJson c.toJson = .ok c ∧
        ∀ t, (fun d => d.interpret t) <$> Conversion.ofJson c.toJson = .ok (c.interpret t)) ∧
    ∀ (v : Json α) (p : Problem α), Problem.ofJson v = .ok p → p.AllFinite →
      Problem.ofJson p.toJson = .ok p ∧
        Problem.toJson <$> Problem.ofJson p.toJson = .ok p.toJson := by
  refine ⟨fun p hp hfinite hwords => ?_, fun c hp hfinite hwords => ?_, fun v p h hfinite => ?_⟩
  · exact ⟨Problem.ofJson_toJson hp.wellFormed hfinite hwords,
      fun name i => ⟨hp.wellFormed.variableIndex?_eq_some_iff,
        hp.wellFormed.consistent.table_eq_some_iff name i⟩⟩
  · have hread := Conversion.ofJson_toJson hp.wellFormed hfinite hwords
    exact ⟨hread, fun t => by rw [hread]; rfl⟩
  · have hread := Problem.ofJson_toJson (Problem.built_of_ofJson h).wellFormed hfinite
      (Problem.inWords_of_ofJson h)
    exact ⟨hread, by rw [hread]; rfl⟩

/-- A problem with its fields out of order, a term given in two parts, a product with its factors
exchanged, a variable as an array and a constraint without a name. -/
def tariffDocument : Json Float :=
  .obj [("objective", .obj [("quadratic", .arr [.arr [.int 1, .int 0, .real 3]]),
      ("constant", .real (-0.5)), ("linear", .arr [.arr [.int 1, .real 0.1],
        .arr [.int 0, .int 2], .arr [.int 1, .real 0.2]]), ("sense", .str "maximize")]),
    ("name", .str "tariff"),
    ("variables", .arr [.obj [("name", .str "x"), ("domain", .str "binary")],
      .arr [.str "n", .obj [("integer", .arr [.int (-2), .int 4])]]]),
    ("constraints", .arr [.obj [("sense", .str "<="), ("rhs", .int 3),
      ("linear", .arr [.arr [.int 1, .int 1]])]])]

/-- Records for the tariff problem, the second of which mentions a variable that is not there. -/
def tariffRecords : List (Record Float) :=
  [Record.identity .maximizeToMinimize 2,
    ⟨.integerToBinary, 2, 4, [.identity 0, .affine (-2) [(1, 1), (2, 0.5), (7, 3)]], [3], false⟩]

/-- The tariff problem, and a conversion with these records, in floating point. -/
theorem tariff_read_back :
    ∃ p : Problem Float, Problem.ofJson tariffDocument = .ok p ∧ Problem.ofJson p.toJson = .ok p ∧
      Conversion.ofJson (⟨p, tariffRecords⟩ : Conversion Float).toJson = .ok ⟨p, tariffRecords⟩ ∧
        Problem.toJson <$> Problem.ofJson p.toJson = .ok p.toJson := by
  have hchecked : (Problem.ofJson tariffDocument).toOption.any
      (fun p => decide p.AllFinite) = true := by decide +kernel
  have hrecords : ∀ r ∈ tariffRecords, r.AllFinite ∧ r.InWords := by decide
  cases h : Problem.ofJson tariffDocument with
  | error e => simp [h, Except.toOption] at hchecked
  | ok p =>
    have hfinite : p.AllFinite := by simpa [h, Except.toOption] using hchecked
    have hwords := Problem.inWords_of_ofJson h
    obtain ⟨hproblem, hconversion, hnormal⟩ := documents_read_back (α := Float)
    exact ⟨p, rfl, (hproblem p (.document h) hfinite hwords).1,
      (hconversion ⟨p, tariffRecords⟩ (.document h) ⟨hfinite, fun r hr => (hrecords r hr).1⟩
        ⟨hwords, fun r hr => (hrecords r hr).2⟩).1, (hnormal _ p h hfinite).2⟩

end QuboReduction

import QuboReduction.Pipeline
import QuboReduction.Proofs.Outcome

/-!
# Refused penalty factors

A penalty factor is checked before the first stage, and an invalid one is refused there. The stages
check it again, but a refusal never comes from them: not to blame a factor is a property of outcomes
that every step of every stage has. This holds over any scalars, so also for doubles that are not
finite.

## Main definitions

* `QuboReduction.BlamesNoFactor` — outcomes other than the refusal of a factor.
* `QuboReduction.Stage.invalidFactor?` — the factor that a stage is refused for.

## Main results

* `QuboReduction.blamesNoFactor_runStages` — stages with valid factors.
* `QuboReduction.convert_eq_invalidPenalty_iff` — the factor that conversion is refused for.
-/

namespace QuboReduction

variable {α : Type}

/-! ### Outcomes that are not the refusal of a factor -/

section Blame

variable {β γ σ : Type}

/-- An outcome is not the refusal of a penalty factor. -/
def BlamesNoFactor (x : Except (ConversionError α) β) : Prop :=
  ∀ f, x ≠ .error (.invalidPenalty f)

namespace BlamesNoFactor

theorem ok (b : β) : BlamesNoFactor (.ok b : Except (ConversionError α) β) := fun _ => nofun

theorem unsupported (name : String) (reason : Unsupported) :
    BlamesNoFactor (.error (.unsupported name reason) : Except (ConversionError α) β) :=
  fun _ => nofun

theorem infeasibleBounds (name : String) (lower upper rhs : α) :
    BlamesNoFactor (.error (.infeasibleBounds name lower upper rhs) :
      Except (ConversionError α) β) :=
  fun _ => nofun

theorem bind {x : Except (ConversionError α) β} {k : β → Except (ConversionError α) γ}
    (hx : BlamesNoFactor x) (hk : ∀ b, BlamesNoFactor (k b)) : BlamesNoFactor (x >>= k) := by
  intro f h
  rcases bind_eq_error.mp h with h | ⟨b, -, h⟩
  · exact hx f h
  · exact hk b f h

theorem ite {c : Prop} [Decidable c] {x y : Except (ConversionError α) β} (hx : BlamesNoFactor x)
    (hy : BlamesNoFactor y) : BlamesNoFactor (if c then x else y) := by
  split
  · exact hx
  · exact hy

theorem ofBuilding (x : Except ProblemError β) :
    BlamesNoFactor (ofBuilding x : Except (ConversionError α) β) := by
  intro f h
  obtain ⟨cause, -, h⟩ := ofBuilding_eq_error.mp h
  contradiction

theorem foldlM {step : σ → β → Except (ConversionError α) σ}
    (hstep : ∀ s b, BlamesNoFactor (step s b)) (l : List β) (s : σ) :
    BlamesNoFactor (l.foldlM step s) := by
  intro f h
  obtain ⟨-, b, -, s, -, -, h⟩ := foldlM_error_of_step (motive := fun _ _ => True) trivial
    (fun _ _ _ _ _ _ _ _ => trivial) h
  exact hstep s b f h

theorem forM {check : β → Except (ConversionError α) Unit}
    (hcheck : ∀ b, BlamesNoFactor (check b)) (l : List β) : BlamesNoFactor (l.forM check) := by
  intro f h
  obtain ⟨b, -, h⟩ := forM_eq_error h
  exact hcheck b f h

end BlamesNoFactor

end Blame

variable [Scalar α]

namespace Problem

variable {p : Problem α}

theorem blamesNoFactor_slackUpper (c : Constraint α) (range : α) :
    BlamesNoFactor (slackUpper c range) := .ite (.unsupported _ _) (.ok _)

theorem blamesNoFactor_slackFor (p : Problem α) (c : Constraint α) :
    BlamesNoFactor (p.slackFor c) := by
  refine .ite (.unsupported _ _) (.ite (.unsupported _ _) ?_)
  have hcut {infeasible redundant : Prop} [Decidable infeasible] [Decidable redundant]
      {range lower upper rhs : α} (slack : Int → Slack α) :
      BlamesNoFactor (if infeasible then .error (.infeasibleBounds c.name lower upper rhs)
        else if redundant then .ok none
        else slackUpper c range >>= fun width => .ok (some (slack width))) :=
    .ite (.infeasibleBounds _ _ _ _)
      (.ite (.ok _) (.bind (blamesNoFactor_slackUpper c _) fun _ => .ok _))
  cases hrelation : c.relation with
  | ge => exact hcut _
  | le => exact hcut _
  | eq => exact hcut _

theorem blamesNoFactor_addTightened (p : Problem α) (state : Problem α × List Nat)
    (c : Constraint α) : BlamesNoFactor (p.addTightened state c) := by
  refine .ite (.bind (.ofBuilding _) fun _ => .ok _) (.bind (p.blamesNoFactor_slackFor c) ?_)
  intro s?
  cases s? with
  | none => exact .ok _
  | some s =>
    exact .ite (.bind (.ofBuilding _) fun _ => .bind (.ofBuilding _) fun _ => .ok _)
      (.bind (.ofBuilding _) fun _ => .ok _)

theorem blamesNoFactor_addSlacks (p : Problem α) : BlamesNoFactor p.addSlacks :=
  .bind (.ofBuilding _) fun _ => .bind (.foldlM p.blamesNoFactor_addTightened _ _) fun _ => .ok _

theorem blamesNoFactor_addBits (q : Problem α) (v : Variable) (k : Nat) (weights : List Nat) :
    BlamesNoFactor (q.addBits v k weights) := by
  induction weights generalizing q k with
  | nil => exact .ok _
  | cons w rest ih => exact .bind (.ofBuilding _) fun r => .bind (ih r.1 (k + 1)) fun _ => .ok _

theorem blamesNoFactor_addBinarized (state : Problem α × Substitution α) (v : Variable) :
    BlamesNoFactor (addBinarized state v) := by
  obtain ⟨q, s⟩ := state
  rw [addBinarized]
  split
  · exact .bind (.ofBuilding _) fun _ => .ok _
  · exact .bind (q.blamesNoFactor_addBits v 0 _) fun _ => .ok _

theorem blamesNoFactor_binarize (p : Problem α) : BlamesNoFactor p.binarize :=
  .bind (.foldlM blamesNoFactor_addBinarized _ _) fun _ =>
    .bind (.ofBuilding _) fun _ => .bind (.ofBuilding _) fun _ => .ok _

theorem blamesNoFactor_checkEquality (p : Problem α) (c : Constraint α) :
    BlamesNoFactor (p.checkEquality c) := by
  refine .ite (.unsupported _ _) (.ite (.unsupported _ _) ?_)
  split
  · exact .unsupported _ _
  · exact .ok _

theorem blamesNoFactor_orient (p : Problem α) (target : Sense) (stage : StageKind) :
    BlamesNoFactor (p.orient target stage) :=
  .bind (.ofBuilding _) fun _ => .bind (.ofBuilding _) fun _ => .ok _

theorem blamesNoFactor_addProduct (p : Problem α) (state : Problem α × ProductTable) (pair : Pair) :
    BlamesNoFactor (p.addProduct state pair) :=
  .ite (.bind (.ofBuilding _) fun _ => .ok _) (.ok _)

theorem blamesNoFactor_linearize (p : Problem α) : BlamesNoFactor p.linearize :=
  .bind (.foldlM p.blamesNoFactor_addProduct _ _) fun _ => .bind (.ofBuilding _) fun _ =>
    .bind (.ofBuilding _) fun _ => .bind (.ofBuilding _) fun _ => .ok _

end Problem

/-! ### The factor that conversion is refused for -/

namespace Stage

variable {s : Stage α} {stages : List (Stage α)} {p : Problem α}

/-- The factor of a stage, if it is not a positive finite number. -/
def invalidFactor? (s : Stage α) : Option α :=
  s.factor?.filter fun f => !(Scalar.isFinite f && decide (0 < f))

theorem invalidFactor?_eq_some_iff {f : α} :
    s.invalidFactor? = some f ↔
      s.factor? = some f ∧ (Scalar.isFinite f && decide (0 < f)) = false := by
  rw [invalidFactor?, Option.filter_eq_some_iff, Bool.not_eq_true']

theorem isFinite_of_invalidFactor?_eq_none (h : s.invalidFactor? = none) {f : α}
    (hf : s.factor? = some f) : (Scalar.isFinite f && decide (0 < f)) = true := by
  cases hinvalid : Scalar.isFinite f && decide (0 < f) with
  | true => rfl
  | false =>
    rw [invalidFactor?_eq_some_iff.mpr ⟨hf, hinvalid⟩] at h
    contradiction

/-- The check of a stage refuses its factor exactly when the factor is invalid. -/
theorem validate_eq (s : Stage α) :
    s.validate = match s.invalidFactor? with
      | none => .ok ()
      | some f => .error (.invalidPenalty f) := by
  rw [validate, invalidFactor?]
  cases s.factor? with
  | none => rfl
  | some f =>
    dsimp only [validateFactor]
    rw [Option.filter_some]
    cases Scalar.isFinite f && decide (0 < f) <;> rfl

/-- The check of all stages refuses the first factor that is invalid. -/
theorem forM_validate_eq (stages : List (Stage α)) :
    stages.forM validate = match stages.findSome? invalidFactor? with
      | none => .ok ()
      | some f => .error (.invalidPenalty f) := by
  induction stages with
  | nil => rfl
  | cons s stages ih =>
    rw [List.forM, validate_eq, List.findSome?_cons]
    cases s.invalidFactor? with
    | none => exact ih
    | some f => rfl

theorem blamesNoFactor_penaltyFactor (h : s.invalidFactor? = none) :
    BlamesNoFactor (p.penaltyFactor s.factor?) := by
  cases hf : s.factor? with
  | none => exact .ok _
  | some f =>
    have hvalid := isFinite_of_invalidFactor?_eq_none h hf
    rw [Problem.penaltyFactor, validateFactor, if_pos hvalid]
    exact .ok _

theorem blamesNoFactor_apply (h : s.invalidFactor? = none) : BlamesNoFactor (s.apply p) := by
  cases s with
  | linearInequalityToPenalty factor =>
    exact .bind (blamesNoFactor_penaltyFactor h) fun _ => .bind (.ofBuilding _) fun _ =>
      .bind (.ofBuilding _) fun _ => .ok _
  | inequalityToEquality => exact p.blamesNoFactor_addSlacks
  | integerToBinary => exact p.blamesNoFactor_binarize
  | linearEqualityToPenalty factor =>
    exact .bind (blamesNoFactor_penaltyFactor h) fun _ =>
      .bind (.forM p.blamesNoFactor_checkEquality _) fun _ => .bind (.ofBuilding _) fun _ => .ok _
  | maximizeToMinimize => exact p.blamesNoFactor_orient _ _
  | minimizeToMaximize => exact p.blamesNoFactor_orient _ _
  | quadraticToLinear => exact p.blamesNoFactor_linearize

end Stage

/-- **Stages with valid factors** are never refused for a factor. -/
theorem blamesNoFactor_runStages {stages : List (Stage α)}
    (h : ∀ s ∈ stages, s.invalidFactor? = none) (p : Problem α) :
    BlamesNoFactor (runStages p stages) := by
  induction stages generalizing p with
  | nil => exact .ok _
  | cons s stages ih =>
    obtain ⟨hs, hstages⟩ := List.forall_mem_cons.mp h
    exact .bind (Stage.blamesNoFactor_apply hs) fun r =>
      .bind (ih hstages r.1) fun _ => .ok _

/-- **The factor that conversion is refused for** is the first one that is invalid. -/
theorem convert_eq_invalidPenalty_iff {stages : List (Stage α)} {p : Problem α} {f : α} :
    convert p stages = .error (.invalidPenalty f) ↔
      stages.findSome? Stage.invalidFactor? = some f := by
  rw [convert, Stage.forM_validate_eq]
  cases hfirst : stages.findSome? Stage.invalidFactor? with
  | none =>
    have hvalid := List.findSome?_eq_none_iff.mp hfirst
    simpa [ok_bind] using blamesNoFactor_runStages hvalid p f
  | some g => simp [error_bind]

end QuboReduction

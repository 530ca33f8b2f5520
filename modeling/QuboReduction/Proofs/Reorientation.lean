import QuboReduction.Proofs.Accounting
import QuboReduction.Proofs.Binarization
import QuboReduction.Proofs.Direction
import QuboReduction.Proofs.Negation
import QuboReduction.Proofs.PenaltyStages
import QuboReduction.Proofs.Tightening

/-!
# The direction may be stated at any position

Since stages do not see the direction, it does not matter when the objective is stated in the
direction that is wanted: before or after any of the stages that are not about the direction, a
conversion is refused for the same reason or ends in the same problem, and vectors and objective
values are taken back in the same way.

## Main definitions

* `QuboReduction.Problem.towards` — a problem stated in a direction.
* `QuboReduction.SameOutcome` — conversions that come to the same.

## Main results

* `QuboReduction.Stage.sense_of_apply` — a stage keeps the direction.
* `QuboReduction.Stage.apply_towards`, `QuboReduction.runStages_towards` — stages of a problem that
  is stated in a direction.
* `QuboReduction.convert_maximizeToMinimize_anywhere` — conversions.
-/

namespace QuboReduction

/-! ### Stages -/

section Stages

variable {p q : Problem Rat} {r : Record Rat} {s : Stage Rat}

theorem Problem.linearize_sense (h : p.linearize = .ok (q, r)) :
    q.objective.sense = p.objective.sense ∧ r.negatesObjective = false := by
  obtain ⟨q₁, table, q₂, q₃, -, -, hobjective, hconstraints, rfl⟩ := linearize_steps h
  obtain ⟨-, rfl⟩ := setObjective_eq_ok_iff.mp hobjective
  rw [objective_of_addConstraints hconstraints]
  exact ⟨rfl, rfl⟩

/-- A stage that is not about the direction keeps it, and objective values with it. -/
theorem Stage.sense_of_apply (hs : s.orients = false) (hp : p.WellFormed)
    (h : s.apply p = .ok (q, r)) :
    q.objective.sense = p.objective.sense ∧ r.negatesObjective = false := by
  cases s with
  | linearInequalityToPenalty given =>
    obtain ⟨f, -, rfl, rfl⟩ := Problem.foldShapes_ok hp h
    exact ⟨p.sense_withShapePenalties f, rfl⟩
  | inequalityToEquality =>
    obtain ⟨hq, -, -, -, hnegates⟩ := Problem.addSlacks_ok hp h
    exact ⟨congrArg Objective.sense hq.objective_eq, hnegates⟩
  | integerToBinary =>
    have hq := Problem.binarize_ok hp h
    exact ⟨hq.sense_eq, hq.negatesObjective_eq⟩
  | linearEqualityToPenalty given =>
    obtain ⟨g, -, hcheck, rfl, rfl⟩ := Problem.foldEqualities_ok hp h
    have hlinear : ∀ c ∈ p.constraints, c.isLinear = true := fun c hc =>
      (Problem.checkEquality_ok (hcheck c hc)).2
    exact ⟨Problem.sense_withSquaredDeviations hp hlinear g, rfl⟩
  | maximizeToMinimize => simp [orients] at hs
  | minimizeToMaximize => simp [orients] at hs
  | quadraticToLinear => exact Problem.linearize_sense h

/-- The problem stated in a direction. -/
def Problem.towards (p : Problem Rat) (target : Sense) : Problem Rat :=
  { p with objective := p.objective.towards target }

theorem Problem.towards_of_sense_eq {target : Sense} (h : p.objective.sense = target) :
    p.towards target = p := by
  rw [towards, Objective.towards, if_pos h]

theorem Problem.towards_of_sense_ne {target : Sense} (h : p.objective.sense ≠ target) :
    p.towards target = p.negated := by
  rw [towards, Objective.towards, if_neg h]
  rfl

/-- **A stage of a problem that is stated in a direction** leaves what it leaves of the problem,
stated in this direction. -/
theorem Stage.apply_towards (hs : s.orients = false) (hp : p.WellFormed) (target : Sense) :
    s.apply (p.towards target) = Prod.map (fun q => q.towards target) id <$> s.apply p := by
  by_cases hsense : p.objective.sense = target
  · rw [Problem.towards_of_sense_eq hsense]
    cases happly : s.apply p with
    | error e => rfl
    | ok result =>
      obtain ⟨q, r⟩ := result
      have hq : q.objective.sense = target := (sense_of_apply hs hp happly).1.trans hsense
      simp [Functor.map, Except.map, Problem.towards_of_sense_eq hq]
  · rw [Problem.towards_of_sense_ne hsense, apply_negated hs]
    cases happly : s.apply p with
    | error e => rfl
    | ok result =>
      obtain ⟨q, r⟩ := result
      have hq : q.objective.sense ≠ target := (sense_of_apply hs hp happly).1 ▸ hsense
      simp [Functor.map, Except.map, Problem.towards_of_sense_ne hq]

end Stages

/-! ### Runs of stages -/

section Runs

variable {p : Problem Rat} {stages : List (Stage Rat)} {c : Conversion Rat}

theorem runStages_sense (hstages : ∀ s ∈ stages, s.orients = false) (hp : p.WellFormed)
    (h : runStages p stages = .ok c) :
    c.problem.objective.sense = p.objective.sense ∧
      ∀ r ∈ c.records, r.negatesObjective = false := by
  induction stages generalizing p c with
  | nil =>
    obtain rfl := Except.ok.inj h
    exact ⟨rfl, by simp⟩
  | cons s stages ih =>
    obtain ⟨hs, hrest⟩ := List.forall_mem_cons.mp hstages
    obtain ⟨q, r, c', hq, hc, rfl⟩ := runStages_cons_ok h
    obtain ⟨hsense, hr⟩ := s.sense_of_apply hs hp hq
    obtain ⟨hsense', hrecords⟩ := ih hrest (s.wellFormed_of_apply hp hq) hc
    exact ⟨hsense'.trans hsense, List.forall_mem_cons.mpr ⟨hr, hrecords⟩⟩

theorem runStages_wellFormed (hp : p.WellFormed) (h : runStages p stages = .ok c) :
    c.problem.WellFormed := by
  induction stages generalizing p c with
  | nil =>
    obtain rfl := Except.ok.inj h
    exact hp
  | cons s stages ih =>
    obtain ⟨q, r, c', hq, hc, rfl⟩ := runStages_cons_ok h
    have hq' : q.WellFormed := s.wellFormed_of_apply hp hq
    exact ih (c := c') hq' hc

/-- **A run on a problem that is stated in a direction** leaves the same records, and what the run
leaves of the problem, stated in this direction. -/
theorem runStages_towards (hstages : ∀ s ∈ stages, s.orients = false) (hp : p.WellFormed)
    (target : Sense) :
    runStages (p.towards target) stages =
      (fun c => ⟨c.problem.towards target, c.records⟩) <$> runStages p stages := by
  induction stages generalizing p with
  | nil => rfl
  | cons s stages ih =>
    obtain ⟨hs, hrest⟩ := List.forall_mem_cons.mp hstages
    simp only [runStages, s.apply_towards hs hp, bind_map_left, map_bind]
    cases happly : s.apply p with
    | error e => rfl
    | ok result =>
      obtain ⟨q, r⟩ := result
      simp only [ok_bind, Prod.map_apply, id_eq, ih hrest (s.wellFormed_of_apply hp happly),
        bind_map_left, map_pure]

end Runs

/-! ### Conversions -/

/-- Two attempts at a conversion that come to the same: both are refused for the same reason, or
both end in the same problem and take vectors and objective values back in the same way. -/
inductive SameOutcome {α : Type} [Scalar α] :
    Except (ConversionError α) (Conversion α) → Except (ConversionError α) (Conversion α) → Prop
  /-- Both are refused. -/
  | error (e : ConversionError α) : SameOutcome (.error e) (.error e)
  /-- Both succeed. -/
  | ok {c d : Conversion α} (hproblem : c.problem = d.problem)
    (hinterpret : ∀ t, c.interpret t = d.interpret t)
    (hobjective : ∀ value, c.interpretObjective value = d.interpretObjective value) :
    SameOutcome (.ok c) (.ok d)

section Conversions

variable {p : Problem Rat} {before after : List (Stage Rat)}

/-- The record of the stage that states a problem of `n` variables as a minimization. -/
private def minimizing (n : Nat) (negates : Bool) : Record Rat :=
  { Record.identity .maximizeToMinimize n with negatesObjective := negates }

private theorem linked_minimizing (n : Nat) (negates : Bool) :
    Record.Linked n [minimizing n negates] n :=
  ⟨rfl, Record.wellShaped_of_keepAll rfl rfl le_rfl, rfl⟩

/-- A record that keeps everything in its place may stand at any position. -/
private theorem interpretAll_minimizing {n k m : Nat} {before after : List (Record Rat)}
    (hbefore : Record.Linked n before k) (hafter : Record.Linked k after m) (negates : Bool)
    (t : List Rat) :
    Record.interpretAll (before ++ ([minimizing k negates] ++ after)) t =
      Record.interpretAll (before ++ (after ++ [minimizing m negates])) t := by
  have hfirst := hbefore.append ((linked_minimizing k negates).append hafter)
  have hlast := hbefore.append (hafter.append (linked_minimizing m negates))
  -- a vector of another size is refused at the last record, which ends at the same size in both
  by_cases ht : t.length = m
  · rw [hfirst.interpretAll_eq ht, hlast.interpretAll_eq ht]
    simp only [Record.backAll_append, Record.backAll_cons, Record.backAll_nil]
    rw [Record.back_of_keepAll_eq rfl (hafter.length_backAll ht), Record.back_of_keepAll_eq rfl ht]
  · rw [hfirst.interpretAll_error (by simp) ht, hlast.interpretAll_error (by simp) ht]
    simp only [List.length_append, List.length_singleton]
    congr 2
    omega

private theorem runStages_maximizeToMinimize (hp : p.WellFormed) :
    runStages p [.maximizeToMinimize] = .ok ⟨p.towards .minimize,
      [minimizing p.size !decide (p.objective.sense = .minimize)]⟩ := by
  have happly : Stage.maximizeToMinimize.apply p = .ok (p.towards .minimize,
      minimizing p.size !decide (p.objective.sense = .minimize)) :=
    Problem.orient_eq hp .minimize .maximizeToMinimize
  rw [runStages, happly]
  rfl

theorem runStages_reoriented (hp : p.WellFormed) (hafter : ∀ s ∈ after, s.orients = false) :
    SameOutcome (runStages p (before ++ [.maximizeToMinimize] ++ after))
      (runStages p (before ++ after ++ [.maximizeToMinimize])) := by
  simp only [List.append_assoc, runStages_append before]
  cases hbefore : runStages p before with
  | error e => exact .error e
  | ok c =>
    have hc : c.problem.WellFormed := runStages_wellFormed hp hbefore
    simp only [ok_bind, runStages_append, runStages_maximizeToMinimize hc,
      runStages_towards hafter hc]
    cases hrest : runStages c.problem after with
    | error e => exact .error e
    | ok d =>
      have hd : d.problem.WellFormed := runStages_wellFormed hc hrest
      obtain ⟨hsense, hkeeps⟩ := runStages_sense hafter hc hrest
      obtain ⟨-, hbefore, -⟩ := runStages_accounts hbefore
      obtain ⟨-, hrest, -⟩ := runStages_accounts hrest
      simp only [ok_bind, runStages_maximizeToMinimize hd, hsense]
      refine .ok rfl (interpretAll_minimizing hbefore hrest _) fun value => ?_
      simp only [Conversion.interpretObjective, Record.interpretObjectiveAll_append]
      rw [Record.interpretObjectiveAll_eq hkeeps, Record.interpretObjectiveAll_eq hkeeps]
      rfl

/-- **The direction may be stated at any position.** Whether a problem is stated as a minimization
before or after stages that are not about the direction, the conversion comes to the same, whatever
stages came before. -/
theorem convert_maximizeToMinimize_anywhere (hp : p.Built)
    (hafter : ∀ s ∈ after, s.orients = false) :
    SameOutcome (convert p (before ++ [.maximizeToMinimize] ++ after))
      (convert p (before ++ after ++ [.maximizeToMinimize])) := by
  have hvalid : (before ++ [Stage.maximizeToMinimize] ++ after).forM Stage.validate =
      (before ++ after ++ [Stage.maximizeToMinimize]).forM Stage.validate := by
    have hone : forM [(Stage.maximizeToMinimize : Stage Rat)] Stage.validate = pure () := rfl
    simp only [List.forM_eq_forM, List.forM_append, List.append_assoc, hone, pure_bind,
      bind_pure_unit]
  rw [convert, convert, hvalid]
  cases (before ++ after ++ [Stage.maximizeToMinimize]).forM Stage.validate with
  | error e => exact .error e
  | ok _ => exact runStages_reoriented hp.wellFormed hafter

end Conversions

/-- The stages of the standard pipeline after the first one, except for the last one. -/
def slackAndBits : List (Stage Rat) :=
  [.inequalityToEquality, .integerToBinary, .linearEqualityToPenalty none]

/-- The rationing problem, which is a maximization, may be stated as a minimization before or after
slack variables and bits are introduced and equalities are folded; both conversions succeed. -/
theorem rationing_maximizeToMinimize_anywhere :
    (convert rationing ([Stage.linearInequalityToPenalty none] ++ [Stage.maximizeToMinimize] ++
        slackAndBits)).isOk = true ∧
      SameOutcome
        (convert rationing ([Stage.linearInequalityToPenalty none] ++ [Stage.maximizeToMinimize] ++
          slackAndBits))
        (convert rationing ([Stage.linearInequalityToPenalty none] ++ slackAndBits ++
          [Stage.maximizeToMinimize])) :=
  ⟨by decide +kernel,
    convert_maximizeToMinimize_anywhere rationing_built (by simp [slackAndBits, Stage.orients])⟩

end QuboReduction

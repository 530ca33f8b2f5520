import Mathlib.Data.List.Perm.Basic
import QuboReduction.Proofs.Growth
import QuboReduction.Proofs.Record

/-!
# Every variable is accounted for

The record of a stage accounts for every variable after the stage: it is either one of those that
recover a variable before the stage, in one place of one mapping, or one that the stage introduced.
Records of successive stages fit to each other, so a conversion takes every vector over its result
back to a vector over its source. All of this holds for any scalars, since it does not depend on
coefficients.

## Main definitions

* `QuboReduction.Record.Accounts` — a record in which every variable after the stage occurs once.

## Main results

* `QuboReduction.Record.Accounts.count_add_count` — how often an index occurs in a record.
* `QuboReduction.Stage.accounts_of_apply` — the record of one stage.
* `QuboReduction.runStages_accounts` — the records of a run.
* `QuboReduction.convert_accounts` — the records of a conversion.
-/

namespace QuboReduction

variable {α : Type} [Scalar α]

/-! ### Records -/

namespace Record

variable {p q : Problem α} {r : Record α} {kind : StageKind}

/-- Every variable after the stage occurs once, in the mappings or among the variables that the
stage introduced, and no other index occurs. -/
def Accounts (r : Record α) : Prop :=
  (r.mappings.flatMap Mapping.indices ++ r.auxiliary).Perm (List.range r.targetSize)

omit [Scalar α] in
/-- How often an index occurs: the two counts are one and zero, in some order, for a variable after
the stage, and both are zero for any other index. -/
theorem Accounts.count_add_count (h : r.Accounts) (i : Nat) :
    (r.mappings.flatMap Mapping.indices).count i + r.auxiliary.count i =
      if i < r.targetSize then 1 else 0 := by
  rw [← List.count_append, h.count_eq, List.count_range]

omit [Scalar α] in
theorem Accounts.wellShaped (h : r.Accounts) (hlen : r.mappings.length = r.sourceSize) :
    r.WellShaped where
  length_mappings := hlen
  inRange := by
    simp only [inRange, List.all_eq_true, decide_eq_true_eq]
    intro m hm i hi
    have hmem : i ∈ r.mappings.flatMap Mapping.indices ++ r.auxiliary :=
      List.mem_append_left _ (List.mem_flatMap.mpr ⟨m, hm, hi⟩)
    exact List.mem_range.mp (h.mem_iff.mp hmem)

omit [Scalar α] in
@[simp] theorem flatMap_indices_keepAll (n : Nat) :
    (keepAll n : List (Mapping α)).flatMap Mapping.indices = List.range n := by
  simp [keepAll, List.flatMap_map, Mapping.indices]

/-- A stage that keeps all variables has them first, and then those that it introduced. -/
theorem Keeps.accounts (h : r.Keeps kind p q) : r.Accounts := by
  obtain ⟨news, hgrows, hperm⟩ := h.grows
  have hle : p.size ≤ q.size := hgrows.size_le
  have hsplit : List.range q.size = List.range p.size ++ news := by
    rw [hgrows.news_eq, Problem.size_variablesOnly, List.range_eq_range', List.range_eq_range']
    have happend := List.range'_append_1 (s := 0) (m := p.size) (n := q.size - p.size)
    rw [Nat.zero_add, Nat.add_sub_cancel' hle] at happend
    exact happend.symm
  rw [Accounts, h.mappings_eq, flatMap_indices_keepAll, h.targetSize_eq, hsplit]
  exact hperm.append_left _

theorem Replaces.accounts (h : r.Replaces kind p q) : r.Accounts := by
  rw [Accounts, h.auxiliary_eq, List.append_nil, h.targetSize_eq, h.grows.news_eq]
  simp [Problem.empty, Problem.size, List.range_eq_range']

end Record

/-! ### Stages -/

/-- What the record of a stage tells. -/
theorem Stage.accounts_of_apply {s : Stage α} {p q : Problem α} {r : Record α}
    (h : s.apply p = .ok (q, r)) :
    r.sourceSize = p.size ∧ r.targetSize = q.size ∧ r.WellShaped ∧ r.Accounts := by
  rcases s.keeps_or_replaces h with hr | hr
  · refine ⟨hr.sourceSize_eq, hr.targetSize_eq, hr.accounts.wellShaped ?_, hr.accounts⟩
    rw [hr.mappings_eq, hr.sourceSize_eq]
    simp [Record.keepAll]
  · refine ⟨hr.sourceSize_eq, hr.targetSize_eq, hr.accounts.wellShaped ?_, hr.accounts⟩
    rw [hr.length_mappings, hr.sourceSize_eq]

/-! ### Runs of stages -/

variable {p : Problem α} {stages : List (Stage α)} {c : Conversion α}

/-- The records of a run: each is that of its stage, they fit to each other, and each accounts for
the variables after its stage. -/
theorem runStages_accounts (h : runStages p stages = .ok c) :
    c.records.map Record.stage = stages.map Stage.kind ∧
      Record.Linked p.size c.records c.problem.size ∧ ∀ r ∈ c.records, r.Accounts := by
  induction stages generalizing p c with
  | nil =>
    obtain rfl := Except.ok.inj h
    exact ⟨rfl, rfl, by simp⟩
  | cons s stages ih =>
    obtain ⟨q, r, c', hq, hc, rfl⟩ := runStages_cons_ok h
    obtain ⟨hkinds, hlinked, haccounts⟩ := ih hc
    obtain ⟨hsource, htarget, hshaped, hr⟩ := s.accounts_of_apply hq
    refine ⟨?_, ⟨hsource, hshaped, htarget ▸ hlinked⟩, List.forall_mem_cons.mpr ⟨hr, haccounts⟩⟩
    rw [List.map_cons, List.map_cons, hkinds, s.stage_of_apply hq]

/-- **Every variable is accounted for.** A conversion has one record for each stage, in order and of
its kind. The records lead from the variables of the source to those of the result, each one
starting where the one before it ends, with one mapping for each variable that it starts from. In
each record every variable after the stage occurs exactly once, in a mapping or as one that the
stage introduced. So every vector over the result is taken back to a vector over the source. -/
theorem convert_accounts (h : convert p stages = .ok c) :
    c.records.map Record.stage = stages.map Stage.kind ∧
      Record.Linked p.size c.records c.problem.size ∧
      (∀ r ∈ c.records, ∀ i, (r.mappings.flatMap Mapping.indices).count i + r.auxiliary.count i =
        if i < r.targetSize then 1 else 0) ∧
      ∀ t : List α, t.length = c.problem.size →
        ∃ s, c.interpret t = .ok s ∧ s.length = p.size := by
  obtain ⟨hkinds, hlinked, haccounts⟩ := runStages_accounts (runStages_of_convert h)
  refine ⟨hkinds, hlinked, fun r hr i => (haccounts r hr).count_add_count i, fun t ht => ?_⟩
  exact ⟨Record.backAll c.records t, hlinked.interpretAll_eq ht, hlinked.length_backAll ht⟩

/-- Maximize `x·y - n` for binary `x` and `y` and an integer `n` from -2 to 4, where `x + y + n` is
at most three and `x - n` is at most one. -/
def rationing : Problem Rat where
  name := "rationing"
  vars := [⟨"x", .binary, 0⟩, ⟨"y", .binary, 1⟩, ⟨"n", .integer (-2) 4, 2⟩]
  objective := ⟨.maximize, ⟨0, Terms.ofList [(2, -1)], Quadratic.ofProducts [(0, 1, 1)]⟩⟩
  constraints := [.ofLinear "share" (Terms.ofList [(0, 1), (1, 1), (2, 1)]) .le 3,
    .ofLinear "first" (Terms.ofList [(0, 1), (2, -1)]) .le 1]

theorem rationing_built : rationing.Built := Problem.built_iff_assemble_eq.mpr rfl

/-- The rationing problem through one stage of each kind. -/
theorem rationing_accounted :
    ∃ c, convert rationing [.quadraticToLinear, .linearInequalityToPenalty none,
        .inequalityToEquality, .minimizeToMaximize, .integerToBinary,
        .linearEqualityToPenalty (some 12), .maximizeToMinimize] = .ok c ∧
      c.records.map Record.stage = [.quadraticToLinear, .linearInequalityToPenalty,
        .inequalityToEquality, .minimizeToMaximize, .integerToBinary, .linearEqualityToPenalty,
        .maximizeToMinimize] ∧
      Record.Linked 3 c.records c.problem.size ∧
      (∀ r ∈ c.records, ∀ i, (r.mappings.flatMap Mapping.indices).count i + r.auxiliary.count i =
        if i < r.targetSize then 1 else 0) ∧
      ∀ t : List Rat, t.length = c.problem.size → ∃ s, c.interpret t = .ok s ∧ s.length = 3 := by
  have hok : (convert rationing [.quadraticToLinear, .linearInequalityToPenalty none,
      .inequalityToEquality, .minimizeToMaximize, .integerToBinary,
      .linearEqualityToPenalty (some 12), .maximizeToMinimize]).isOk = true := by decide +kernel
  obtain ⟨c, hc⟩ := isOk_iff.mp hok
  exact ⟨c, hc, convert_accounts hc⟩

end QuboReduction

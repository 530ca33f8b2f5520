import QuboReduction.Proofs.Binarization

/-!
# Values over bits

The affine expressions that stand for integer variables after the stage are multiplied out exactly,
so the problem over bits agrees with its source as a polynomial problem: at every vector of
rationals, whether its entries are zeros and ones or not, the objective is what it is at the vector
taken back, and so is every left-hand side minus its right-hand side. Squares and products of
affine expressions, variables of a single value and terms that cancel are all included.

## Main definitions

* `QuboReduction.Constraint.SameGap` — constraints that are missed alike at two vectors.

## Main results

* `QuboReduction.Problem.binarize_values` — objective and constraints over bits, at every vector.
-/

namespace QuboReduction

/-! ### Constraints that are missed alike -/

/-- How far a left-hand side is from satisfying a relation depends on the difference of both sides
only. -/
theorem Relation.excess_congr (r : Relation) {lhs rhs lhs' rhs' : Rat}
    (h : lhs' - rhs' = lhs - rhs) : r.excess lhs' rhs' = r.excess lhs rhs := by
  have hflip : rhs' - lhs' = rhs - lhs := by rw [← neg_sub, h, neg_sub]
  cases r with
  | le => rw [excess, excess, h]
  | ge => rw [excess, excess, hflip]
  | eq => rw [excess, excess, h]

/-- A constraint `d` at a vector `t` says what the constraint `c` says at the vector `s`. -/
structure Constraint.SameGap (c : Constraint Rat) (s : List Rat) (d : Constraint Rat)
    (t : List Rat) : Prop where
  /-- The name is the same. -/
  name_eq : d.name = c.name
  /-- The relation is the same. -/
  relation_eq : d.relation = c.relation
  /-- The left-hand sides differ from the right-hand sides by the same amount. -/
  gap_eq : d.evaluate (valueAt t) - d.rhs = c.evaluate (valueAt s) - c.rhs

/-- The reported amounts of violation are the same. -/
theorem Constraint.SameGap.violation_eq {c d : Constraint Rat} {s t : List Rat}
    (h : c.SameGap s d t) : d.violation (valueAt t) = c.violation (valueAt s) := by
  rw [violation, violation, h.relation_eq]
  exact c.relation.excess_congr h.gap_eq

namespace Problem

variable {p q : Problem Rat} {r : Record Rat} {t : List Rat}

/-! ### The problem over bits -/

namespace BinaryForm

variable (h : p.BinaryForm q r)

include h

theorem length_back : (r.back t).length = p.size := by
  rw [Record.length_back, h.wellShaped.length_mappings, h.sourceSize_eq]

/-- Each constraint over the bits says what its source says at the vector taken back. -/
theorem sameGap (t : List Rat) :
    List.Forall₂ (fun c d => c.SameGap (r.back t) d t) p.constraints q.constraints := by
  rw [h.constraints_eq, List.forall₂_map_right_iff, List.forall₂_same]
  exact fun c _ => ⟨rfl, rfl, Substitution.evaluate_constraint r.mappings c⟩

end BinaryForm

/-- **Values over bits.** After the stage all variables are binary, the constraints are those of the
source in the same order, and at every vector of rationals the objective is that of the source at
the vector taken back, each constraint differs from its right-hand side by what its source does, and
the reported amounts of violation are the same. -/
theorem binarize_values (hp : p.Built) (h : Stage.integerToBinary.apply p = .ok (q, r)) :
    (∀ v ∈ q.vars, v.isBinary = true) ∧ q.objective.sense = p.objective.sense ∧
      ∀ t, t.length = q.size → ∃ s, (∀ position, r.interpret position t = .ok s) ∧
        (∃ value, p.evaluateObjective s = .ok value ∧ q.evaluateObjective t = .ok value) ∧
        List.Forall₂ (fun c d => c.SameGap s d t ∧
          d.violation (valueAt t) = c.violation (valueAt s)) p.constraints q.constraints := by
  have hform : p.BinaryForm q r := binarize_ok hp.wellFormed h
  refine ⟨hform.binary, hform.sense_eq, fun t ht => ⟨r.back t, fun position => ?_, ?_, ?_⟩⟩
  · exact hform.wellShaped.interpret_eq (ht.trans hform.targetSize_eq.symm) position
  · refine ⟨p.value (r.back t), evaluateObjective_of_length hform.length_back, ?_⟩
    rw [evaluateObjective_of_length ht, hform.value_eq]
  · exact (hform.sameGap t).imp fun _ _ hgap => ⟨hgap, hgap.violation_eq⟩

end Problem

/-- Maximize `n² + 2·x·n - n·k + 1` for a binary variable `x`, an integer `n` from -2 to 1 and an
integer `k` that can only be three, with an inequality of degree two and an equality. -/
def blending : Problem Rat where
  name := "blending"
  vars := [⟨"x", .binary, 0⟩, ⟨"n", .integer (-2) 1, 1⟩, ⟨"k", .integer 3 3, 2⟩]
  objective := ⟨.maximize,
    ⟨1, Terms.empty, Quadratic.ofProducts [(1, 1, 1), (0, 1, 2), (1, 2, -1)]⟩⟩
  constraints := [
    ⟨"bent", Terms.ofList [(1, 1)], Quadratic.ofProducts [(1, 1, 1), (0, 2, 1)], .ge, 2⟩,
    .ofLinear "tie" (Terms.ofList [(0, 1), (1, 2), (2, -1)]) .eq (-3)]

theorem blending_built : blending.Built := Problem.built_iff_assemble_eq.mpr rfl

/-- The vector `[1/2, 2, -1/3]` over the bits of the blending problem is taken back to
`[1/2, -2/3, 3]`, where the objective is `25/9`, and it misses both constraints alike. -/
theorem blending_values : ∃ q r, Stage.integerToBinary.apply blending = .ok (q, r) ∧
    (∀ v ∈ q.vars, v.isBinary = true) ∧
    r.interpret 0 [1 / 2, 2, -1 / 3] = .ok [1 / 2, -2 / 3, 3] ∧
    blending.evaluateObjective [1 / 2, -2 / 3, 3] = .ok (25 / 9) ∧
    q.evaluateObjective [1 / 2, 2, -1 / 3] = .ok (25 / 9) ∧
    List.Forall₂ (fun c d => c.SameGap [1 / 2, -2 / 3, 3] d [1 / 2, 2, -1 / 3] ∧
      d.violation (valueAt [1 / 2, 2, -1 / 3]) = c.violation (valueAt [1 / 2, -2 / 3, 3]))
      blending.constraints q.constraints := by
  have hok : (Stage.integerToBinary.apply blending).isOk = true := by decide +kernel
  obtain ⟨⟨q, r⟩, h⟩ := isOk_iff.mp hok
  have hrun : (Stage.integerToBinary.apply blending).toOption.map (fun result =>
      (result.1.size, (result.2.interpret 0 [1 / 2, 2, -1 / 3]).toOption)) =
        some (3, some [1 / 2, -2 / 3, 3]) := by decide +kernel
  obtain ⟨hbinary, -, hvalues⟩ := Problem.binarize_values blending_built h
  rw [h] at hrun
  obtain ⟨hsize, hback⟩ := Prod.mk.inj (Option.some.inj hrun)
  obtain ⟨s, hinterpret, ⟨value, hsource, htarget⟩, hgaps⟩ :=
    hvalues [1 / 2, 2, -1 / 3] hsize.symm
  rw [hinterpret 0] at hback
  obtain rfl : s = [1 / 2, -2 / 3, 3] := Option.some.inj hback
  have hvalue : blending.evaluateObjective [1 / 2, -2 / 3, 3] = .ok (25 / 9) := by
    rw [Problem.evaluateObjective_of_length rfl]
    decide +kernel
  rw [hvalue] at hsource
  obtain rfl := Except.ok.inj hsource
  exact ⟨q, r, h, hbinary, hinterpret 0, hvalue, htarget, hgaps⟩

end QuboReduction

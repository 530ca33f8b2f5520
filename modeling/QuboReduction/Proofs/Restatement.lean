import QuboReduction.Proofs.Multiples

/-!
# Restated inequalities

The stage for slack variables sees what an inequality says and hardly how it is written. A positive
multiple of the inequality leads to the very same result, as long as its coefficients are not too
large, and the negation of both sides leads to the same result with the one equality negated. Where
the stage is refused, it is refused for the same reason and the same constraint; only the numbers
that are told of a range without solutions may differ.

## Main definitions

* `QuboReduction.ConversionError.unnumbered`, `QuboReduction.Alike` — outcomes that agree but for
  the numbers that are told.
* `QuboReduction.Problem.restate` — the problem with one of its constraints written differently.
* `QuboReduction.Problem.replacement`, `QuboReduction.Problem.place` — the step for an inequality in
  two parts.

## Main results

* `QuboReduction.Problem.replacement_multiply`, `QuboReduction.Problem.replacement_negate` — what
  takes the place of an inequality.
* `QuboReduction.Problem.addTightened_negate` — one step of the stage.
* `QuboReduction.Problem.addSlacks_restate` — the stage.
-/

namespace QuboReduction

/-! ### Outcomes that are alike -/

/-- The error without the numbers that are told of a range. -/
def ConversionError.unnumbered : ConversionError Rat → ConversionError Rat
  | infeasibleBounds name _ _ _ => infeasibleBounds name 0 0 0
  | e => e

/-- Two outcomes give the same result, or are refused for the same reason: the errors may only
differ in the numbers that are told of a range. -/
def Alike {β : Type} (x y : Except (ConversionError Rat) β) : Prop :=
  x.mapError ConversionError.unnumbered = y.mapError ConversionError.unnumbered

namespace Alike

variable {β γ : Type} {x y z : Except (ConversionError Rat) β}

theorem refl (x : Except (ConversionError Rat) β) : Alike x x := rfl

theorem symm (h : Alike x y) : Alike y x := Eq.symm h

theorem trans (h : Alike x y) (h' : Alike y z) : Alike x z := Eq.trans h h'

theorem of_eq (h : x = y) : Alike x y := congrArg _ h

theorem bind {f g : β → Except (ConversionError Rat) γ} (h : Alike x y)
    (hstep : ∀ b, y = .ok b → Alike (f b) (g b)) : Alike (x >>= f) (y >>= g) := by
  cases x with
  | error e =>
    cases y with
    | error e' => exact congrArg Except.error (Except.error.inj h)
    | ok b => contradiction
  | ok a =>
    cases y with
    | error e => contradiction
    | ok b =>
      obtain rfl : a = b := Except.ok.inj h
      exact hstep a rfl

theorem map {f : β → γ} (h : Alike x y) : Alike (f <$> x) (f <$> y) := by
  rw [map_eq_pure_bind, map_eq_pure_bind]
  exact h.bind fun _ _ => refl _

/-- Runs over two lists are alike up to a change of the state, if each of their steps is. -/
theorem foldlM_map {σ : Type} {f e : σ → β → Except (ConversionError Rat) σ} {g : σ → σ}
    {k : β → β} {l : List β} (h : ∀ s, ∀ b ∈ l, Alike (e (g s) (k b)) (g <$> f s b)) (s : σ) :
    Alike ((l.map k).foldlM e (g s)) (g <$> l.foldlM f s) := by
  induction l generalizing s with
  | nil => exact refl _
  | cons b l ih =>
    rw [List.map_cons, List.foldlM_cons, List.foldlM_cons, map_bind]
    refine ((h s b List.mem_cons_self).bind fun _ _ => refl _).trans ?_
    rw [bind_map_left]
    exact (refl _).bind fun s' _ => ih (fun t a ha => h t a (List.mem_cons_of_mem _ ha)) s'

end Alike

/-! ### The step for an inequality in two parts -/

section Parts

variable {α : Type} [Scalar α]

/-- The constraint with one more term of degree one. -/
def Constraint.addTerm (c : Constraint α) (index : Nat) (coef : α) : Constraint α :=
  { c with linear := c.linear.addTerm index coef }

namespace Problem

/-- What takes the place of an inequality: an equality without its slack variable, the largest value
of the slack variable and its coefficient, or nothing. -/
def replacement (p : Problem α) (c : Constraint α) :
    Except (ConversionError α) (Option (Constraint α × Int × α)) :=
  Option.map (fun slack => (c.tightened slack, slack.upper, slack.sign)) <$> p.slackFor c

/-- Puts an equality into the place of the inequality with the given name. -/
def place (name : String) (state : Problem α × List Nat) :
    Option (Constraint α × Int × α) → Except (ConversionError α) (Problem α × List Nat)
  | none => pure state
  | some (equality, upper, sign) =>
    if 0 < upper then do
      let (q, index) ← ofBuilding (state.1.addVariable (name ++ "@int_slack") (.integer 0 upper))
      let q ← ofBuilding (q.addConstraint (equality.addTerm index sign))
      pure (q, state.2 ++ [index])
    else do
      let q ← ofBuilding (state.1.addConstraint equality)
      pure (q, state.2)

theorem addTightened_eq_place {p : Problem α} {c : Constraint α} (hrelation : c.relation ≠ .eq)
    (state : Problem α × List Nat) :
    p.addTightened state c = p.replacement c >>= place c.name state := by
  simp only [addTightened, if_neg hrelation, replacement, bind_map_left]
  refine bind_congr fun slack? => ?_
  cases slack? with
  | none => rfl
  | some slack => rfl

end Problem

end Parts

namespace Problem

variable {p : Problem Rat} {c : Constraint Rat} {n : Nat}

/-! ### What takes the place of an inequality -/

/-- What takes the place of an inequality, in closed form. -/
private theorem replacement_alike (p : Problem Rat) (c : Constraint Rat) :
    Alike (p.replacement c)
      (if ¬c.IsRegular then .error (.unsupported c.name .fractionalCoefficient)
      else if ¬c.IsExact then .error (.unsupported c.name .largeCoefficient)
      else if p.slackRange c < 0 then .error (.infeasibleBounds c.name 0 0 0)
      else if 0 ≤ p.leastGap c then .ok none
      else if 2 ^ 53 < p.slackRange c then .error (.unsupported c.name .wideSlack)
      else .ok (some (c.tightened (c.slackOf (Scalar.truncate (p.slackRange c))),
        Scalar.truncate (p.slackRange c), c.slackSign))) := by
  rw [replacement, slackFor_eq]
  split_ifs <;> rfl

/-- Without coefficients both ends of the range are zero. -/
private theorem slackRange_eq_leastGap (hnil : c.coefficients = []) :
    c.isLinear = true ∧ p.slackRange c = p.leastGap c := by
  obtain ⟨hlinear, hquadratic⟩ := List.append_eq_nil_iff.mp hnil
  have hlinear : c.linear.toList = [] := List.map_eq_nil_iff.mp hlinear
  have hquadratic : c.quadratic.toList = [] := List.map_eq_nil_iff.mp hquadratic
  have hrange : p.rangeOf c = ⟨0, 0⟩ := by
    rw [rangeOf, hlinear, hquadratic]
    rfl
  exact ⟨by simp [Constraint.isLinear, Terms.isEmpty, hquadratic], by
    rw [slackRange, leastGap, hrange]⟩

/-- **Multiples.** What takes the place of a positive multiple is what takes the place of the
inequality. -/
theorem replacement_multiply (hp : p.WellFormed) (hrelation : c.relation ≠ .eq)
    (hregular : c.IsRegular) (hn : 1 ≤ n) (hexact : (c.multiply n).IsExact) :
    Alike (p.replacement (c.multiply n)) (p.replacement c) := by
  refine (replacement_alike p _).trans (Alike.trans (.of_eq ?_) (replacement_alike p c).symm)
  have hregular' := hregular.multiply hn
  rw [if_neg (not_not.mpr hregular'), if_neg (not_not.mpr hexact), if_neg (not_not.mpr hregular),
    if_neg (not_not.mpr (hexact.of_multiply hn))]
  have hname : (c.multiply n).name = c.name := rfl
  have hsign : (c.multiply n).slackSign = c.slackSign := rfl
  by_cases hnil : c.coefficients = []
  · have hpos : (0 : Rat) < n := by exact_mod_cast Nat.lt_of_succ_le hn
    have hnil' : (c.multiply n).coefficients = [] := by
      rw [Constraint.coefficients_multiply hpos.ne', hnil, List.map_nil]
    obtain ⟨hlinear, hends⟩ := slackRange_eq_leastGap (p := p) hnil
    obtain ⟨hlinear', hends'⟩ := slackRange_eq_leastGap (p := p) hnil'
    have hnegative : p.slackRange (c.multiply n) < 0 ↔ p.slackRange c < 0 := by
      have hrelation' : (c.multiply n).relation ≠ .eq := hrelation
      rw [slackRange_neg_iff hp hrelation' hlinear' hregular',
        slackRange_neg_iff hp hrelation hlinear hregular]
      simp only [Constraint.holds_multiply_iff hpos]
    -- the range is a point, so the inequality is refused or dropped
    by_cases hrange : p.slackRange c < 0
    · rw [if_pos (hnegative.mpr hrange), if_pos hrange, hname]
    · have hrange' := (not_congr hnegative).mpr hrange
      rw [if_neg hrange', if_neg hrange, if_pos ((not_lt.mp hrange').trans_eq hends'),
        if_pos ((not_lt.mp hrange).trans_eq hends)]
  · rw [slackRange_multiply hregular hnil hn, leastGap_multiply hregular hnil hn,
      Constraint.tightened_multiply hregular hnil hn, hname, hsign]

/-- What takes the place of an inequality, with both sides of the equality negated. -/
def negateReplacement : Constraint Rat × Int × Rat → Constraint Rat × Int × Rat
  | (equality, upper, sign) => (equality.negate, upper, -sign)

/-- **Negation.** What takes the place of the negation is the negation of what takes the place of
the inequality. -/
theorem replacement_negate (hrelation : c.relation ≠ .eq) :
    Alike (p.replacement c.negate) (Option.map negateReplacement <$> p.replacement c) := by
  refine (replacement_alike p _).trans (Alike.trans (.of_eq ?_) (replacement_alike p c).map.symm)
  rw [slackRange_negate hrelation, leastGap_negate hrelation, Constraint.tightened_negate hrelation,
    Constraint.slackSign_negate hrelation, Constraint.name_negate]
  simp only [Constraint.isRegular_negate_iff, Constraint.isExact_negate_iff]
  split_ifs <;> rfl

/-! ### A problem with one constraint written differently -/

end Problem

/-- The constraint, written differently if it has the given name. -/
def Constraint.restate (name : String) (f : Constraint Rat → Constraint Rat) (c : Constraint Rat) :
    Constraint Rat :=
  if c.name = name then f c else c

namespace Problem

/-- The problem with the constraint of the given name written differently. -/
def restate (p : Problem Rat) (name : String) (f : Constraint Rat → Constraint Rat) :
    Problem Rat :=
  { p with constraints := p.constraints.map (Constraint.restate name f) }

variable {p q : Problem Rat} {c d : Constraint Rat} {n : Nat} {name : String}
  {f : Constraint Rat → Constraint Rat} {before after : List (Constraint Rat)}

/-- Names tell constraints apart, so one constraint is written differently. -/
theorem restate_eq (hp : p.WellFormed) (hsplit : p.constraints = before ++ c :: after) :
    p.restate c.name f = { p with constraints := before ++ f c :: after } := by
  have hnodup := hp.constraintNames_nodup
  rw [hsplit, List.map_append, List.map_cons, List.nodup_append, List.nodup_cons] at hnodup
  obtain ⟨-, ⟨hafter, -⟩, hbefore⟩ := hnodup
  have hother : ∀ {l : List (Constraint Rat)}, (∀ d ∈ l, d.name ≠ c.name) →
      l.map (Constraint.restate c.name f) = l := fun {l} hl =>
    (List.map_congr_left fun d hd => if_neg (hl d hd)).trans l.map_id
  rw [restate, hsplit, List.map_append, List.map_cons, hother, hother]
  · rw [Constraint.restate, if_pos rfl]
  · exact fun d hd hname => hafter (List.mem_map.mpr ⟨d, hd, hname⟩)
  · exact fun d hd hname => hbefore _ (List.mem_map_of_mem hd) _ List.mem_cons_self hname

@[simp] theorem size_restate (p : Problem Rat) (name : String)
    (f : Constraint Rat → Constraint Rat) : (p.restate name f).size = p.size := rfl

/-! ### Building with a negated constraint -/

theorem addVariable_restate (q : Problem Rat) (name : String) (f : Constraint Rat → Constraint Rat)
    (label : String) (domain : Domain) :
    (q.restate name f).addVariable label domain =
      Prod.map (fun q => q.restate name f) id <$> q.addVariable label domain := by
  have hindex : (q.restate name f).variableIndex? label = q.variableIndex? label := rfl
  simp only [addVariable, hindex]
  split
  · rfl
  · split <;> rfl

end Problem

@[simp] theorem Constraint.name_restate (name : String) (c : Constraint Rat) :
    (c.restate name negate).name = c.name := by
  rw [restate]
  split <;> rfl

/-- Equalities remain equalities, and inequalities remain inequalities. -/
theorem Constraint.relation_restate_eq_iff (name : String) (c : Constraint Rat) :
    (c.restate name negate).relation = .eq ↔ c.relation = .eq := by
  rw [restate]
  split
  · rw [negate]
    cases c.relation <;> simp [Relation.flip]
  · rfl

theorem Constraint.maxIndex?_restate (name : String) (c : Constraint Rat) :
    (c.restate name negate).maxIndex? = c.maxIndex? := by
  have hkeys : c.negate.maxIndex? = c.maxIndex? := by
    simp only [maxIndex?, negate, multiply, Linear.maxIndex?, Quadratic.maxIndex?,
      Terms.keys_scale (neg_ne_zero.mpr one_ne_zero)]
  rw [restate]
  split
  · exact hkeys
  · rfl

namespace Problem

variable {p q : Problem Rat} {c d : Constraint Rat} {name : String}
  {f : Constraint Rat → Constraint Rat} {before after : List (Constraint Rat)}

theorem addConstraint_restate (hnamed : d.name ≠ "") (q : Problem Rat) (name : String) :
    (q.restate name .negate).addConstraint (d.restate name .negate) =
      (fun q => q.restate name .negate) <$> q.addConstraint d := by
  have hindex : (q.restate name .negate).checkIndex (d.restate name .negate).maxIndex? =
      q.checkIndex d.maxIndex? := by
    rw [Constraint.maxIndex?_restate]
    cases d.maxIndex? <;> rfl
  have hname : (q.restate name .negate).nameFor (d.restate name .negate) = d.name := by
    rw [nameFor_of_named (by simpa using hnamed), Constraint.name_restate]
  have hlookup : ((q.restate name .negate).constraint? d.name).isSome =
      (q.constraint? d.name).isSome := by
    rw [Bool.eq_iff_iff, constraint?_isSome, constraint?_isSome]
    simp [restate]
  simp only [addConstraint, hindex, hname, nameFor_of_named hnamed, hlookup, map_bind]
  refine bind_congr fun _ => ?_
  split
  · rfl
  · have hself : ({ d.restate name .negate with name := d.name } : Constraint Rat) =
        d.restate name .negate := by
      rw [Constraint.mk.injEq]
      exact ⟨(Constraint.name_restate name d).symm, rfl, rfl, rfl, rfl⟩
    rw [hself]
    simp only [restate, map_pure, List.map_append, List.map_cons, List.map_nil]

/-- The slack variable of a negated equality has the negated coefficient. -/
private theorem addTerm_restate (d : Constraint Rat) (name : String) (index : Nat) (sign : Rat) :
    (d.restate name .negate).addTerm index (if d.name = name then -sign else sign) =
      (d.addTerm index sign).restate name .negate := by
  have hname : (d.addTerm index sign).name = d.name := rfl
  rw [Constraint.restate, Constraint.restate, hname]
  split
  · simp only [Constraint.addTerm, Constraint.negate, Constraint.multiply, Constraint.mk.injEq,
      and_true, true_and]
    refine Terms.ext_of_value fun m => ?_
    simp only [Terms.value_addTerm, Terms.value_scale]
    ring
  · rfl

/-- An equality, negated if it has the given name, in the place of an inequality of its name. -/
theorem place_restate (hnamed : d.name ≠ "") (state : Problem Rat × List Nat) (name : String)
    (upper : Int) (sign : Rat) :
    place d.name (Prod.map (fun q => q.restate name .negate) id state)
        (some (d.restate name .negate, upper, if d.name = name then -sign else sign)) =
      Prod.map (fun q => q.restate name .negate) id <$>
        place d.name state (some (d, upper, sign)) := by
  obtain ⟨q, slacks⟩ := state
  simp only [place, Prod.map_apply, id_eq]
  split
  · simp only [addVariable_restate, ofBuilding_map, bind_map_left, map_bind]
    refine bind_congr fun added => ?_
    have hadd := addConstraint_restate (d := d.addTerm added.2 sign) hnamed added.1 name
    simp only [Prod.map_fst, Prod.map_snd, id_eq, addTerm_restate, hadd, ofBuilding_map,
      bind_map_left, map_pure, Prod.map_apply]
  · simp only [addConstraint_restate hnamed, ofBuilding_map, bind_map_left, map_bind, map_pure,
      Prod.map_apply, id_eq]

/-- What takes the place of an inequality has its name. -/
private theorem name_of_replacement {equality : Constraint Rat} {upper : Int} {sign : Rat}
    (h : p.replacement c = .ok (some (equality, upper, sign))) : equality.name = c.name := by
  obtain ⟨slack?, -, hslack⟩ := map_eq_ok.mp h
  obtain ⟨slack, -, hslack⟩ := Option.map_eq_some_iff.mp hslack
  rw [← (Prod.mk.inj hslack).1]
  rfl

/-- **One step.** The step for a constraint that is negated if it has the given name. -/
theorem addTightened_negate (p : Problem Rat) (hnamed : c.name ≠ "")
    (state : Problem Rat × List Nat) (name : String) :
    Alike (p.addTightened (Prod.map (fun q => q.restate name .negate) id state)
        (c.restate name .negate))
      (Prod.map (fun q => q.restate name .negate) id <$> p.addTightened state c) := by
  have hrelation' := Constraint.relation_restate_eq_iff name c
  by_cases hrelation : c.relation = .eq
  · obtain ⟨q, slacks⟩ := state
    refine .of_eq ?_
    simp only [addTightened, hrelation, hrelation', if_true, Prod.map_apply, id_eq,
      addConstraint_restate hnamed, ofBuilding_map, bind_map_left, map_bind, map_pure]
  · have hreplacement : Alike (p.replacement (c.restate name .negate))
        (Option.map (fun r => if c.name = name then negateReplacement r else r) <$>
          p.replacement c) := by
      rw [Constraint.restate]
      split
      · exact replacement_negate hrelation
      · simpa using Alike.refl _
    rw [addTightened_eq_place (hrelation'.not.mpr hrelation), addTightened_eq_place hrelation,
      map_bind, Constraint.name_restate]
    refine (hreplacement.bind fun _ _ => .refl _).trans ?_
    rw [bind_map_left]
    refine (Alike.refl _).bind fun r hr => .of_eq ?_
    cases r with
    | none => rfl
    | some r =>
      obtain ⟨equality, upper, sign⟩ := r
      have hname := name_of_replacement hr
      have hplace := place_restate (d := equality) (hname ▸ hnamed) state name upper sign
      rw [hname] at hplace
      rw [← hplace, Option.map_some, Constraint.restate, hname]
      congr 2
      split <;> rfl

/-! ### The stage -/

/-- The run of the stage over restated constraints. -/
private theorem addSlacks_alike {g : Problem Rat → Problem Rat}
    (hsize : ∀ q, (g q).size = q.size) (hstart : ∀ q : Problem Rat, q.constraints = [] → g q = q)
    (hstep : ∀ state, ∀ d ∈ p.constraints,
      Alike (p.addTightened (Prod.map g id state) (d.restate name f))
        (Prod.map g id <$> p.addTightened state d)) :
    Alike (p.restate name f).addSlacks (Prod.map g id <$> p.addSlacks) := by
  have hvariables : (p.restate name f).variablesOnly = p.variablesOnly := rfl
  rw [addSlacks, addSlacks, map_bind, hvariables]
  refine (Alike.refl _).bind fun start hstart' => ?_
  obtain ⟨-, rfl⟩ := setObjective_eq_ok_iff.mp (ofBuilding_eq_ok.mp hstart')
  have hrun := Alike.foldlM_map (e := p.addTightened) hstep
    ({ p.variablesOnly with objective := p.objective }, [])
  rw [Prod.map_apply, hstart _ rfl, id_eq] at hrun
  rw [map_bind]
  refine (hrun.bind fun _ _ => .refl _).trans ?_
  rw [bind_map_left]
  refine (Alike.refl _).bind fun state _ => .of_eq ?_
  simp only [Prod.map_fst, Prod.map_snd, id_eq, map_pure, Prod.map_apply, hsize, size_restate]

/-- **Restated inequalities.** Let `c` be a constraint of a problem that was built. If `c` is an
inequality of integer coefficients, it may be multiplied by a positive integer as long as its
coefficients stay within `2 ^ 53`: the stage for slack variables gives the same problem and record,
or is refused for the same reason and constraint. And both sides of `c` may be negated: the stage
gives the same problem with both sides of the one equality negated and the same record, or is
refused for the same reason and constraint. -/
theorem addSlacks_restate (hp : p.Built) (hsplit : p.constraints = before ++ c :: after) :
    (c.relation ≠ .eq → c.IsRegular → ∀ n : Nat, 1 ≤ n → (c.multiply n).IsExact →
      Alike ({ p with constraints := before ++ c.multiply n :: after } : Problem Rat).addSlacks
        p.addSlacks) ∧
      Alike ({ p with constraints := before ++ c.negate :: after } : Problem Rat).addSlacks
        (Prod.map (fun q => q.restate c.name .negate) id <$> p.addSlacks) := by
  have hp := hp.wellFormed
  have hc : c ∈ p.constraints := by simp [hsplit]
  constructor
  · intro hrelation hregular n hn hexact
    rw [← restate_eq (f := fun c => c.multiply n) hp hsplit]
    have hstep : ∀ state, ∀ d ∈ p.constraints,
        Alike (p.addTightened (Prod.map id id state) (d.restate c.name fun c => c.multiply n))
          (Prod.map id id <$> p.addTightened state d) := by
      intro state d hd
      rw [Prod.map_id, id_map, id_eq, Constraint.restate]
      split
      · rename_i hname
        obtain rfl := List.inj_on_of_nodup_map hp.constraintNames_nodup hd hc hname
        have hrelation' : (d.multiply n).relation ≠ .eq := hrelation
        rw [addTightened_eq_place hrelation', addTightened_eq_place hrelation]
        exact (replacement_multiply hp hrelation hregular hn hexact).bind fun _ _ => .refl _
      · exact .refl _
    have halike := addSlacks_alike (g := id) (fun _ => rfl) (fun _ _ => rfl) hstep
    rwa [Prod.map_id, id_map] at halike
  · rw [← restate_eq hp hsplit]
    refine addSlacks_alike (fun _ => rfl) (fun q hq => ?_) fun state d hd =>
      p.addTightened_negate (hp.constraint_named d hd) state c.name
    rw [restate, hq, List.map_nil, ← hq]

end Problem

/-- The inequality `4n - 2xn ≤ 5 / 2`. -/
def mix : Constraint Rat :=
  ⟨"mix", Terms.ofList [(1, 4)], Quadratic.ofProducts [(0, 1, -2)], .le, 5 / 2⟩

/-- The inequality `x + n ≥ -2`. -/
def sumFloor : Constraint Rat := .ofLinear "some" (Terms.ofList [(0, 1), (1, 1)]) .ge (-2)

/-- The inequality `n ≥ -2`. -/
def termFloor : Constraint Rat := .ofLinear "few" (Terms.ofList [(1, 1)]) .ge (-2)

/-- Maximize `x + n` for a binary `x` and an integer `n` from -3 to 2, with an inequality between
two other ones. -/
def mixing : Problem Rat where
  name := "mixing"
  vars := [⟨"x", .binary, 0⟩, ⟨"n", .integer (-3) 2, 1⟩]
  objective := ⟨.maximize, ⟨0, Terms.ofList [(0, 1), (1, 1)], Terms.empty⟩⟩
  constraints := [sumFloor, mix, termFloor]

/-- The second inequality of the mixing problem may be written with all numbers multiplied by three
or negated, and the stage accepts it. -/
theorem mixing_restated :
    mixing.addSlacks.isOk = true ∧
      Alike ({ mixing with constraints := [sumFloor, mix.multiply (3 : Nat), termFloor] } :
          Problem Rat).addSlacks mixing.addSlacks ∧
      Alike ({ mixing with constraints := [sumFloor, mix.negate, termFloor] } :
          Problem Rat).addSlacks
        (Prod.map (fun q => q.restate "mix" .negate) id <$> mixing.addSlacks) := by
  have hbuilt : mixing.Built := Problem.built_iff_assemble_eq.mpr rfl
  have hsplit : mixing.constraints = [sumFloor] ++ mix :: [termFloor] := rfl
  obtain ⟨hmultiply, hnegate⟩ := Problem.addSlacks_restate hbuilt hsplit
  exact ⟨by decide +kernel,
    hmultiply (by decide) (by decide +kernel) 3 (by decide) (by decide +kernel), hnegate⟩

end QuboReduction

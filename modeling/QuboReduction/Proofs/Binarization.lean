import QuboReduction.Proofs.Substitution
import QuboReduction.Proofs.Weights
import QuboReduction.Proofs.Growth

/-!
# Integer variables become binary ones

The stage goes through the variables one after another. At each point the problem under construction
has binary variables only, the affine expressions found so far take its admissible vectors to values
within the ranges of the variables done, and every such choice of values is reached.

## Main definitions

* `QuboReduction.Variable.bitNames` — the names of the binary variables for a variable.
* `QuboReduction.Problem.Expresses` — an affine expression reaches exactly the range of a variable.
* `QuboReduction.Problem.Binarized` — what holds after each variable.

## Main results

* `QuboReduction.Problem.binarize_ok` — what the stage leaves.
* `QuboReduction.Problem.binarize_isOk` — the stage succeeds when no name is used twice.
-/

namespace QuboReduction

/-- The names of the binary variables that stand for a variable. -/
def Variable.bitNames (v : Variable) : List String :=
  match v.domain with
  | .binary => [v.name]
  | .integer lower upper =>
    (List.range' 0 (bitWeights (upper - lower).toNat).length).map (Problem.bitName v)

namespace Problem

variable {q q' : Problem Rat} {v : Variable} {k : Nat} {ws : List Nat}

/-! ### The bits of a variable -/

/-- Adding bits extends the problem by binary variables with numbered names, and gives each weight
the index of its variable. -/
theorem addBits_ok {α : Type} [Scalar α] {q q' : Problem α} {terms : List (Nat × α)}
    (hq : q.WellFormed) (h : q.addBits v k ws = .ok (q', terms)) :
    q'.WellFormed ∧ terms = (ws.zipIdx q.size).map (fun e => (e.2, Scalar.ofInt (e.1 : Int))) ∧
      ∃ extra, q' = { q with vars := q.vars ++ extra } ∧ (∀ w ∈ extra, w.isBinary = true) ∧
        extra.map Variable.name = (List.range' k ws.length).map (bitName v) := by
  induction ws generalizing q k terms with
  | nil =>
    simp only [addBits, Except.ok.injEq, Prod.mk.injEq] at h
    obtain ⟨rfl, rfl⟩ := h
    exact ⟨hq, rfl, [], by simp, by simp, rfl⟩
  | cons w ws ih =>
    obtain ⟨⟨q₁, index⟩, hadd, h⟩ := bind_eq_ok.mp h
    obtain ⟨⟨q₂, rest⟩, hrest, h⟩ := bind_eq_ok.mp h
    rw [pure_eq_ok, Prod.mk.injEq] at h
    obtain ⟨rfl, rfl⟩ := h
    have hadd := ofBuilding_eq_ok.mp hadd
    obtain ⟨hwellFormed, hterms, extra, hextra, hbinary, hnames⟩ :=
      ih (hq.of_addVariable hadd) hrest
    obtain ⟨-, -, rfl, rfl⟩ := addVariable_eq_ok_iff.mp hadd
    refine ⟨hwellFormed, ?_, ⟨bitName v k, .binary, q.size⟩ :: extra, ?_, ?_, ?_⟩
    · rw [hterms, size_declare]
      rfl
    · simp [hextra, declare]
    · exact List.forall_mem_cons.mpr ⟨rfl, hbinary⟩
    · simp [hnames, List.range'_succ]

/-- Adding bits succeeds when their names are new. -/
theorem addBits_isOk
    (hnodup : (q.variableNames ++ (List.range' k ws.length).map (bitName v)).Nodup) :
    ∃ r, q.addBits v k ws = .ok r := by
  induction ws generalizing q k with
  | nil => exact ⟨(q, []), rfl⟩
  | cons w ws ih =>
    rw [List.length_cons, List.range'_succ, List.map_cons] at hnodup
    have hname : bitName v k ∉ q.variableNames := fun hmem =>
      (List.nodup_append.mp hnodup).2.2 _ hmem _ List.mem_cons_self rfl
    have hadd : q.addVariable (bitName v k) .binary =
        .ok (q.declare (bitName v k) .binary, q.size) :=
      addVariable_eq_ok_iff.mpr ⟨hname, by simp [Domain.lower, Domain.upper], rfl, rfl⟩
    obtain ⟨⟨q₁, rest⟩, hrest⟩ := ih (q := q.declare (bitName v k) .binary) (k := k + 1)
      (by simpa using hnodup)
    refine ⟨(q₁, (q.size, (w : Rat)) :: rest), ?_⟩
    rw [addBits, hadd]
    simp only [ofBuilding, ok_bind, hrest]
    rfl

/-- The terms of new bits add up to the sum of the weights whose bits are one. -/
theorem sum_zipIdx {r bs : List Rat} (hlen : bs.length = ws.length) :
    (((ws.zipIdx r.length).map fun e => (e.2, (e.1 : Rat))).map
      fun t => t.2 * valueAt (r ++ bs) t.1).sum = weigh ws bs := by
  induction ws generalizing r bs with
  | nil => simp
  | cons w ws ih =>
    obtain ⟨b, bs, rfl⟩ := List.exists_cons_of_length_eq_add_one hlen
    have hrest := ih (r := r ++ [b]) (by simpa using hlen)
    rw [List.append_assoc, List.length_append, List.length_singleton] at hrest
    have hhead : valueAt (r ++ b :: bs) r.length = b := by
      rw [valueAt_append_right le_rfl]
      simp [valueAt]
    rw [List.zipIdx_cons, List.map_cons, List.map_cons, List.sum_cons, weigh_cons, ← hrest, hhead]
    rfl

/-! ### One more variable -/

/-- Among extensions by `count` bits a mapping takes exactly the values of the range of a
variable. -/
structure Expresses (q : Problem Rat) (count : Nat) (v : Variable) (m : Mapping Rat) : Prop where
  /-- The mapping mentions variables of the extension only. -/
  within : ∀ i ∈ m.indices, i < q.size + count
  /-- Its values are within the range. -/
  sound : ∀ r bs, r.length = q.size → bs.length = count → IsBits bs →
    v.domain.Admits (m.apply (valueAt (r ++ bs)))
  /-- Every value of the range is reached. -/
  complete : ∀ r a, r.length = q.size → v.domain.Admits a →
    ∃ bs, bs.length = count ∧ IsBits bs ∧ m.apply (valueAt (r ++ bs)) = a

private theorem expresses_identity (hv : v.domain = .binary) :
    Expresses q 1 v (.identity q.size) := by
  have happly : ∀ (r : List Rat) a, r.length = q.size →
      (Mapping.identity q.size).apply (valueAt (r ++ [a])) = a := fun r a hr => by
    rw [Mapping.apply, ← hr, valueAt_append_right le_rfl]
    simp [valueAt]
  have hadmits : ∀ a : Rat, v.domain.Admits a ↔ a = 0 ∨ a = 1 := fun a =>
    Domain.admits_binary_iff (by rw [hv]; rfl)
  refine ⟨by simp [Mapping.indices], fun r bs hr hlen hbs => ?_,
    fun r a hr ha => ⟨[a], rfl, ?_, ?_⟩⟩
  · obtain ⟨b, rfl⟩ := List.length_eq_one_iff.mp hlen
    rw [happly r b hr, hadmits]
    exact hbs b (by simp)
  · simpa [IsBits] using (hadmits a).mp ha
  · exact happly r a hr

private theorem expresses_affine {lower upper : Int} (hv : v.domain = .integer lower upper)
    (hle : lower ≤ upper) {ws : List Nat} (hws : ws = bitWeights (upper - lower).toNat) :
    Expresses q ws.length v
      (.affine lower ((ws.zipIdx q.size).map fun e => (e.2, (e.1 : Rat)))) := by
  have happly : ∀ r bs : List Rat, r.length = q.size → bs.length = ws.length →
      (Mapping.affine (lower : Rat) ((ws.zipIdx q.size).map fun e => (e.2, (e.1 : Rat)))).apply
        (valueAt (r ++ bs)) = lower + weigh ws bs := fun r bs hr hlen => by
    rw [Mapping.apply, Scalar.sum_rat, ← hr, sum_zipIdx hlen]
  have hsum : ws.sum = (upper - lower).toNat := by rw [hws, sum_bitWeights]
  refine ⟨fun i hi => ?_, fun r bs hr hlen hbs => ?_, fun r a hr ha => ?_⟩
  · simp only [Mapping.indices, List.map_map, List.mem_map, Function.comp_apply] at hi
    obtain ⟨e, he, rfl⟩ := hi
    exact (List.mem_zipIdx he).2.1
  · obtain ⟨m, hm, hle'⟩ := weigh_le hlen hbs
    rw [happly r bs hr hlen, hm, hv]
    refine ⟨lower + m, by push_cast; rfl, ?_, ?_⟩
    · rw [Domain.lower]
      omega
    · rw [Domain.upper]
      omega
  · rw [hv] at ha
    obtain ⟨n, rfl, hlower, hupper⟩ := ha
    rw [Domain.lower] at hlower
    rw [Domain.upper] at hupper
    have hreaches : Reaches ws := by
      rw [hws]
      exact reaches_bitWeights _
    obtain ⟨bs, hlen, hbs, hweigh⟩ := hreaches (n - lower).toNat (by omega)
    refine ⟨bs, hlen, hbs, ?_⟩
    have hcast : (((n - lower).toNat : Nat) : Rat) = n - lower := by
      rw [← Int.cast_natCast, Int.toNat_of_nonneg (by omega), Int.cast_sub]
    rw [happly r bs hr hlen, hweigh, hcast]
    ring

/-- A step adds binary variables, and a mapping that expresses the variable by them. -/
theorem addBinarized_ok {s s' : Substitution Rat} (hq : q.WellFormed)
    (hv : v.domain.lower ≤ v.domain.upper) (h : addBinarized (q, s) v = .ok (q', s')) :
    q'.WellFormed ∧ ∃ extra m, q' = { q with vars := q.vars ++ extra } ∧ s' = s ++ [m] ∧
      (∀ w ∈ extra, w.isBinary = true) ∧ extra.map Variable.name = v.bitNames ∧
      Expresses q extra.length v m := by
  simp only [addBinarized] at h
  cases hdomain : v.domain with
  | binary =>
    rw [hdomain] at h
    obtain ⟨⟨q₁, index⟩, hadd, h⟩ := bind_eq_ok.mp h
    rw [pure_eq_ok, Prod.mk.injEq] at h
    obtain ⟨rfl, rfl⟩ := h
    have hadd := ofBuilding_eq_ok.mp hadd
    have hwellFormed := hq.of_addVariable hadd
    obtain ⟨-, -, rfl, rfl⟩ := addVariable_eq_ok_iff.mp hadd
    exact ⟨hwellFormed, [⟨v.name, .binary, q.size⟩], _, rfl, rfl,
      by simp [Variable.isBinary, Domain.isBinary], by simp [Variable.bitNames, hdomain],
      expresses_identity hdomain⟩
  | integer lower upper =>
    rw [hdomain] at h hv
    obtain ⟨⟨q₁, terms⟩, hadd, h⟩ := bind_eq_ok.mp h
    rw [pure_eq_ok, Prod.mk.injEq] at h
    obtain ⟨rfl, rfl⟩ := h
    obtain ⟨hwellFormed, rfl, extra, rfl, hbinary, hnames⟩ := addBits_ok hq hadd
    have hlen : extra.length = (bitWeights (upper - lower).toNat).length := by
      have := congrArg List.length hnames
      simpa using this
    refine ⟨hwellFormed, extra, _, rfl, rfl, hbinary, ?_, ?_⟩
    · rw [hnames, Variable.bitNames, hdomain]
    · rw [hlen]
      exact expresses_affine hdomain hv rfl

/-- What holds of the problem under construction and the affine expressions after the variables
`done`. -/
structure Binarized (done : List Variable) (q : Problem Rat) (s : Substitution Rat) : Prop where
  /-- The problem is well-formed. -/
  wellFormed : q.WellFormed
  /-- There are no constraints yet. -/
  constraints_eq : q.constraints = []
  /-- All variables are binary. -/
  binary : ∀ v ∈ q.vars, v.isBinary = true
  /-- Their names are those of the bits of the variables done. -/
  variableNames_eq : q.variableNames = done.flatMap Variable.bitNames
  /-- The affine expressions mention variables of the problem only. -/
  within : s.Within q.size
  /-- Their values are within the ranges of the variables done. -/
  sound : ∀ t, q.Admissible t →
    List.Forall₂ (fun v a => v.domain.Admits a) done (s.image (valueAt t))
  /-- All values within these ranges are reached. -/
  complete : ∀ values, List.Forall₂ (fun v a => v.domain.Admits a) done values →
    ∃ t, q.Admissible t ∧ s.image (valueAt t) = values

variable {done : List Variable} {s s' : Substitution Rat} {p : Problem Rat} {r : Record Rat}

private theorem binarized_start (name : String) : Binarized [] (empty name) [] where
  wellFormed := wellFormed_empty name
  constraints_eq := rfl
  binary := by simp [empty]
  variableNames_eq := rfl
  within := by simp [Substitution.Within]
  sound _ _ := .nil
  complete values h := by
    cases h
    exact ⟨[], .nil, rfl⟩

/-- **One more variable.** A step expresses the variable that it is about. -/
theorem Binarized.step (h : Binarized done q s) (hv : v.domain.lower ≤ v.domain.upper)
    (hstep : addBinarized (q, s) v = .ok (q', s')) : Binarized (done ++ [v]) q' s' := by
  obtain ⟨hwellFormed, extra, m, rfl, rfl, hbinary, hnames, hm⟩ :=
    addBinarized_ok h.wellFormed hv hstep
  have hsize : ({ q with vars := q.vars ++ extra } : Problem Rat).size = q.size + extra.length := by
    simp [size]
  have himage : ∀ r bs : List Rat, r.length = q.size →
      Substitution.image (s ++ [m]) (valueAt (r ++ bs)) =
        s.image (valueAt r) ++ [m.apply (valueAt (r ++ bs))] := fun r bs hr => by
    rw [Substitution.image, List.map_append, List.map_singleton, ← Substitution.image,
      h.within.image_congr fun i hi => valueAt_append_left (hr ▸ hi)]
  have hadmissible : ∀ t, ({ q with vars := q.vars ++ extra } : Problem Rat).Admissible t ↔
      ∃ r bs, t = r ++ bs ∧ q.Admissible r ∧ bs.length = extra.length ∧ IsBits bs := fun t => by
    rw [admissible_append_iff (p := q) extra rfl]
    simp only [admits_iff_isBits hbinary]
  refine {
    wellFormed := hwellFormed
    constraints_eq := h.constraints_eq
    binary := List.forall_mem_append.mpr ⟨h.binary, hbinary⟩
    variableNames_eq := ?_
    within := ?_
    sound := ?_
    complete := ?_ }
  · rw [List.flatMap_append, ← h.variableNames_eq]
    simp [variableNames, hnames]
  · rw [hsize]
    refine List.forall_mem_append.mpr ⟨h.within.mono (Nat.le_add_right _ _), ?_⟩
    simpa using hm.within
  · intro t ht
    obtain ⟨r, bs, rfl, hr, hlen, hbs⟩ := (hadmissible t).mp ht
    rw [himage r bs hr.length_eq]
    exact List.rel_append (h.sound r hr) (.cons (hm.sound r bs hr.length_eq hlen hbs) .nil)
  · intro values hvalues
    obtain ⟨before, last, rfl, hbefore, hlast⟩ := forall₂_append_iff.mp hvalues
    obtain ⟨a, _, ha, hnil, rfl⟩ := List.forall₂_cons_left_iff.mp hlast
    obtain rfl := List.forall₂_nil_left_iff.mp hnil
    obtain ⟨r, hr, hrback⟩ := h.complete before hbefore
    obtain ⟨bs, hlen, hbs, happly⟩ := hm.complete r a hr.length_eq ha
    refine ⟨r ++ bs, (hadmissible _).mpr ⟨r, bs, rfl, hr, hlen, hbs⟩, ?_⟩
    rw [himage r bs hr.length_eq, hrback, happly]

/-! ### The stage -/

/-- What the stage leaves of a problem. -/
structure BinaryForm (p q : Problem Rat) (r : Record Rat) : Prop where
  /-- The problem is well-formed. -/
  wellFormed : q.WellFormed
  /-- All variables are binary. -/
  binary : ∀ v ∈ q.vars, v.isBinary = true
  /-- The record fits to the variables of the source. -/
  sourceSize_eq : r.sourceSize = p.size
  /-- The record fits to the binary variables. -/
  targetSize_eq : r.targetSize = q.size
  /-- The mappings of the record fit to its sizes. -/
  wellShaped : r.WellShaped
  /-- The objective is not negated. -/
  negatesObjective_eq : r.negatesObjective = false
  /-- The direction stays. -/
  sense_eq : q.objective.sense = p.objective.sense
  /-- Objective values stay, at every vector. -/
  value_eq : ∀ t, q.value t = p.value (r.back t)
  /-- The mappings of the record are substituted into the constraints. -/
  constraints_eq : q.constraints = p.constraints.map (Substitution.constraint r.mappings)
  /-- Vectors of zeros and ones are taken back to admissible vectors. -/
  sound : ∀ t, q.Admissible t → p.Admissible (r.back t)
  /-- Every admissible vector is reached. -/
  complete : ∀ s, p.Admissible s → ∃ t, q.Admissible t ∧ r.back t = s

private theorem binarized_step (hp : p.WellFormed) {before after : List Variable}
    {state state' : Problem Rat × Substitution Rat} (hsplit : p.vars = before ++ v :: after)
    (h : Binarized before state.1 state.2) (hstep : addBinarized state v = .ok state') :
    Binarized (before ++ [v]) state'.1 state'.2 :=
  h.step (hp.lower_le_upper v (by simp [hsplit])) hstep

private theorem binarized_of_run (hp : p.WellFormed)
    (h : p.vars.foldlM addBinarized ((empty p.name : Problem Rat), []) = .ok (q, s)) :
    Binarized p.vars q s :=
  foldlM_ok_of_step (motive := fun done state => Binarized done state.1 state.2)
    (binarized_start p.name)
    (fun _ _ _ _ _ hsplit h hstep => binarized_step hp hsplit h hstep) h

/-- **What the stage leaves.** A problem over binary variables whose vectors express exactly the
admissible vectors of the source, with the same objective values and constraints. -/
theorem binarize_ok (hp : p.WellFormed) (h : p.binarize = .ok (q, r)) :
    p.BinaryForm q r := by
  have hlen : r.mappings.length = p.size := (binarize_replaces h).length_mappings
  obtain ⟨q₁, s, q₂, hrun, hobjective, hconstraints, rfl⟩ := binarize_steps h
  have hstate := binarized_of_run hp hrun
  have hwellFormed := (hstate.wellFormed.of_setObjective hobjective).of_addConstraints hconstraints
  obtain ⟨-, rfl⟩ := setObjective_eq_ok_iff.mp hobjective
  have hnamed : ∀ c ∈ p.constraints.map (Substitution.constraint s), c.name ≠ "" := by
    simpa [Substitution.constraint] using hp.constraint_named
  obtain ⟨-, -, rfl⟩ := (addConstraints_eq_ok_iff hnamed (by simp [hstate.constraints_eq])).mp
    hconstraints
  refine {
    wellFormed := hwellFormed
    binary := hstate.binary
    sourceSize_eq := rfl
    targetSize_eq := rfl
    wellShaped := ⟨hlen, ?_⟩
    negatesObjective_eq := rfl
    sense_eq := rfl
    value_eq := fun t => s.evaluate_objective p.objective
    constraints_eq := by simp [hstate.constraints_eq]
    sound := hstate.sound
    complete := hstate.complete }
  rw [Record.inRange, List.all_eq_true]
  intro m hm
  rw [List.all_eq_true]
  intro i hi
  exact decide_eq_true (hstate.within m hm i hi)

/-- Over the bits a vector is feasible when the values that it expresses are. -/
theorem BinaryForm.feasible_iff (h : p.BinaryForm q r) {t : List Rat} (ht : q.Admissible t) :
    q.Feasible t ↔ p.Feasible (r.back t) := by
  rw [Feasible, Feasible, h.constraints_eq, List.forall_mem_map]
  simp only [Substitution.holds_constraint_iff]
  exact and_congr_left' ⟨fun _ => h.sound t ht, fun _ => ht⟩

/-! ### The stage succeeds -/

/-- A step succeeds when the names of the bits are new. -/
theorem addBinarized_isOk (hnodup : (q.variableNames ++ v.bitNames).Nodup) :
    ∃ state, addBinarized (q, s) v = .ok state := by
  simp only [addBinarized]
  rw [Variable.bitNames] at hnodup
  cases hdomain : v.domain with
  | binary =>
    rw [hdomain] at hnodup
    have hname : v.name ∉ q.variableNames := fun hmem =>
      (List.nodup_append.mp hnodup).2.2 _ hmem _ (List.mem_singleton_self _) rfl
    have hadd : q.addVariable v.name .binary = .ok (q.declare v.name .binary, q.size) :=
      addVariable_eq_ok_iff.mpr ⟨hname, by simp [Domain.lower, Domain.upper], rfl, rfl⟩
    exact ⟨(q.declare v.name .binary, s ++ [.identity q.size]), by simp only [hadd]; rfl⟩
  | integer lower upper =>
    rw [hdomain] at hnodup
    obtain ⟨⟨q₁, terms⟩, hadd⟩ := addBits_isOk hnodup
    exact ⟨(q₁, s ++ [.affine lower terms]), by simp only [hadd]; rfl⟩

/-- **Success.** The stage succeeds when the names of all bits are different. -/
theorem binarize_isOk (hp : p.WellFormed) (hnodup : (p.vars.flatMap Variable.bitNames).Nodup) :
    ∃ result, p.binarize = .ok result := by
  have hrun : ∃ state, p.vars.foldlM addBinarized ((empty p.name : Problem Rat), []) =
      .ok state := by
    cases hrun : p.vars.foldlM addBinarized ((empty p.name : Problem Rat), []) with
    | ok state => exact ⟨state, rfl⟩
    | error e =>
      obtain ⟨before, v, after, state, hsplit, hstate, herror⟩ :=
        foldlM_error_of_step (motive := fun done state => Binarized done state.1 state.2)
          (binarized_start p.name)
          (fun _ _ _ _ _ hsplit h hstep => binarized_step hp hsplit h hstep) hrun
      have hnew : (state.1.variableNames ++ v.bitNames).Nodup := by
        rw [hsplit, List.flatMap_append, List.flatMap_cons, ← List.append_assoc] at hnodup
        rw [hstate.variableNames_eq]
        exact (List.nodup_append.mp hnodup).1
      obtain ⟨_, hok⟩ := addBinarized_isOk (s := state.2) hnew
      rw [hok] at herror
      contradiction
  obtain ⟨⟨q, s⟩, hrun⟩ := hrun
  have hstate := binarized_of_run hp hrun
  have hobjective : q.setObjective (s.objective p.objective) =
      .ok { q with objective := s.objective p.objective } :=
    setObjective_eq_ok_iff.mpr ⟨hstate.within.expand _ _, rfl⟩
  have hconstraints : ({ q with objective := s.objective p.objective } : Problem Rat).addConstraints
      (p.constraints.map s.constraint) = .ok { q with
        objective := s.objective p.objective
        constraints := p.constraints.map s.constraint } := by
    refine (addConstraints_eq_ok_iff ?_ (by simp [hstate.constraints_eq])).mpr ⟨?_, ?_, ?_⟩
    · simpa [Substitution.constraint] using hp.constraint_named
    · simp only [List.mem_map]
      rintro _ ⟨c, -, rfl⟩
      exact hstate.within.expand _ _
    · simpa [hstate.constraints_eq, Substitution.constraint, Function.comp_def]
        using hp.constraintNames_nodup
    · simp [hstate.constraints_eq]
  rw [binarize, hrun]
  simp only [ok_bind, hobjective, hconstraints, ofBuilding]
  exact ⟨_, rfl⟩

end Problem

end QuboReduction

import QuboReduction.ConversionError

/-!
# Outcomes of steps

A conversion is a sequence of steps each of which gives a result or refuses. A sequence gives a
result when all its steps do, and a run of steps over a list keeps what every single step keeps.

## Main results

* `QuboReduction.bind_eq_ok`, `QuboReduction.bind_eq_error` — two steps one after another.
* `QuboReduction.foldlM_hom` — a change of the state that commutes with each step.
* `QuboReduction.foldl_of_step`, `QuboReduction.foldlM_ok_of_step` — what a run over a list
  establishes.
* `QuboReduction.foldlM_error_of_step` — the element at which a run is refused.
* `QuboReduction.forM_eq_ok_iff`, `QuboReduction.forM_eq_error`,
  `QuboReduction.forM_append_cons_error` — checks of all elements of a list.
* `QuboReduction.mapM_map_eq_ok`, `QuboReduction.exists_of_mem_mapM`,
  `QuboReduction.exists_ok_of_mapM` — a step on each element of a list.
-/

namespace QuboReduction

variable {ε β γ σ : Type}

/-! ### One step after another -/

theorem bind_eq_ok {x : Except ε β} {f : β → Except ε γ} {c : γ} :
    x >>= f = .ok c ↔ ∃ b, x = .ok b ∧ f b = .ok c := by
  cases x <;> simp [bind, Except.bind]

theorem bind_eq_error {x : Except ε β} {f : β → Except ε γ} {e : ε} :
    x >>= f = .error e ↔ x = .error e ∨ ∃ b, x = .ok b ∧ f b = .error e := by
  cases x <;> simp [bind, Except.bind]

theorem map_eq_ok {x : Except ε β} {f : β → γ} {c : γ} :
    f <$> x = .ok c ↔ ∃ b, x = .ok b ∧ f b = c := by
  cases x <;> simp [Functor.map, Except.map]

theorem pure_eq_ok {b c : β} : (pure b : Except ε β) = .ok c ↔ b = c := by
  simp [pure, Except.pure]

theorem pure_ne_error {b : β} {e : ε} : (pure b : Except ε β) ≠ .error e := nofun

theorem throw_eq_error (e : ε) : (throw e : Except ε β) = .error e := rfl

theorem isOk_iff {x : Except ε β} : x.isOk = true ↔ ∃ b, x = .ok b := by
  cases x <;> simp [Except.isOk, Except.toBool]

theorem toOption_eq_some_iff {x : Except ε β} {b : β} : x.toOption = some b ↔ x = .ok b := by
  cases x <;> simp [Except.toOption]

theorem ok_bind {b : β} {f : β → Except ε γ} : (Except.ok b >>= f) = f b := rfl

theorem error_bind {e : ε} {f : β → Except ε γ} : (Except.error e >>= f) = .error e := rfl

theorem ofBuilding_eq_ok {α : Type} {x : Except ProblemError β} {b : β} :
    (ofBuilding x : Except (ConversionError α) β) = .ok b ↔ x = .ok b := by
  cases x <;> simp [ofBuilding]

theorem ofBuilding_eq_error {α : Type} {x : Except ProblemError β} {e : ConversionError α} :
    (ofBuilding x : Except (ConversionError α) β) = .error e ↔
      ∃ cause, x = .error cause ∧ e = .problem cause := by
  cases x <;> simp [ofBuilding, eq_comm]

theorem ofBuilding_map {α : Type} {g : β → γ} (x : Except ProblemError β) :
    (ofBuilding (g <$> x) : Except (ConversionError α) γ) = g <$> ofBuilding x := by
  cases x <;> rfl

/-! ### Runs over a list -/

/-- A change of the state that commutes with each step commutes with a run. -/
theorem foldlM_hom {f f' : σ → β → Except ε σ} {g : σ → σ} (h : ∀ s b, f' (g s) b = g <$> f s b)
    (l : List β) (s : σ) : l.foldlM f' (g s) = g <$> l.foldlM f s := by
  induction l generalizing s with
  | nil => rfl
  | cons b l ih => simp only [List.foldlM_cons, h, bind_map_left, ih, map_bind]

/-- A run over a list takes a statement about a number from the start to the end, if each step adds
one to the number as long as that is below a limit. -/
theorem foldl_of_step {f : σ → β → σ} {motive : Nat → σ → Prop} {l : List β} {start : σ}
    {n limit : Nat} (hstart : motive n start)
    (hstep : ∀ m s, ∀ b ∈ l, m < limit → motive m s → motive (m + 1) (f s b))
    (hcount : n + l.length ≤ limit) : motive (n + l.length) (l.foldl f start) := by
  induction l generalizing n start with
  | nil => exact hstart
  | cons b l ih =>
    rw [List.length_cons] at hcount ⊢
    have hfirst := hstep n start b List.mem_cons_self (by omega) hstart
    have hrest := ih hfirst (fun m s b hb => hstep m s b (List.mem_cons_of_mem _ hb)) (by omega)
    rwa [Nat.add_right_comm, Nat.add_assoc] at hrest

/-- **What a run establishes.** A statement about the elements done so far and the state, true at
the start and kept by each step that gives a result, holds of the whole list and the last state. -/
theorem foldlM_ok_of_step {f : σ → β → Except ε σ} {motive : List β → σ → Prop} {l : List β}
    {start last : σ} (hstart : motive [] start)
    (hstep : ∀ before b after s s', l = before ++ b :: after → motive before s →
      f s b = .ok s' → motive (before ++ [b]) s')
    (h : l.foldlM f start = .ok last) : motive l last := by
  suffices hrun : ∀ after before s, l = before ++ after → motive before s →
      after.foldlM f s = .ok last → motive l last from hrun l [] start rfl hstart h
  intro after
  induction after with
  | nil =>
    intro before s hl hs hrun
    rw [List.append_nil] at hl
    rw [List.foldlM_nil, pure_eq_ok] at hrun
    rwa [hl, ← hrun]
  | cons b after ih =>
    intro before s hl hs hrun
    rw [List.foldlM_cons, bind_eq_ok] at hrun
    obtain ⟨s', hb, hrest⟩ := hrun
    exact ih (before ++ [b]) s' (by simpa using hl) (hstep before b after s s' hl hs hb) hrest

/-- **Where a run is refused.** If a run over a list is refused, one of its elements is, in a state
that the elements before it have led to. -/
theorem foldlM_error_of_step {f : σ → β → Except ε σ} {motive : List β → σ → Prop} {l : List β}
    {start : σ} {e : ε} (hstart : motive [] start)
    (hstep : ∀ before b after s s', l = before ++ b :: after → motive before s →
      f s b = .ok s' → motive (before ++ [b]) s')
    (h : l.foldlM f start = .error e) :
    ∃ before b after s, l = before ++ b :: after ∧ motive before s ∧ f s b = .error e := by
  suffices hrun : ∀ after before s, l = before ++ after → motive before s →
      after.foldlM f s = .error e →
      ∃ before b after s, l = before ++ b :: after ∧ motive before s ∧ f s b = .error e from
    hrun l [] start rfl hstart h
  intro after
  induction after with
  | nil => exact fun _ _ _ _ hrun => absurd hrun pure_ne_error
  | cons b after ih =>
    intro before s hl hs hrun
    rw [List.foldlM_cons, bind_eq_error] at hrun
    rcases hrun with hb | ⟨s', hb, hrest⟩
    · exact ⟨before, b, after, s, hl, hs, hb⟩
    · exact ih (before ++ [b]) s' (by simpa using hl) (hstep before b after s s' hl hs hb) hrest

/-! ### Checks of all elements -/

theorem forM_eq_ok_iff {f : β → Except ε Unit} {l : List β} :
    l.forM f = .ok () ↔ ∀ b ∈ l, f b = .ok () := by
  induction l with
  | nil => simp [List.forM, pure, Except.pure]
  | cons b l ih =>
    rw [List.forM, bind_eq_ok, List.forall_mem_cons, ← ih]
    constructor
    · rintro ⟨_, hb, hl⟩
      exact ⟨hb, hl⟩
    · exact fun h => ⟨(), h.1, h.2⟩

theorem forM_eq_error {f : β → Except ε Unit} {l : List β} {e : ε}
    (h : l.forM f = .error e) : ∃ b ∈ l, f b = .error e := by
  induction l with
  | nil => exact absurd h pure_ne_error
  | cons b l ih =>
    rw [List.forM, bind_eq_error] at h
    rcases h with h | ⟨_, -, h⟩
    · exact ⟨b, List.mem_cons_self, h⟩
    · obtain ⟨b', hb', h⟩ := ih h
      exact ⟨b', List.mem_cons_of_mem _ hb', h⟩

/-- The first check that fails is the one that is told. -/
theorem forM_append_cons_error {f : β → Except ε Unit} {before after : List β} {b : β} {e : ε}
    (hbefore : ∀ a ∈ before, f a = .ok ()) (hb : f b = .error e) :
    (before ++ b :: after).forM f = .error e := by
  induction before with
  | nil => rw [List.nil_append, List.forM, hb, error_bind]
  | cons a before ih =>
    obtain ⟨ha, hbefore⟩ := List.forall_mem_cons.mp hbefore
    rw [List.cons_append, List.forM, ha, ok_bind, ih hbefore]

/-! ### Steps on each element -/

variable {δ : Type}

/-- A step that gives a result on each element gives the list of results. -/
theorem mapM_map_eq_ok {f : γ → Except ε δ} {g : β → γ} {k : β → δ} {l : List β}
    (h : ∀ b ∈ l, f (g b) = .ok (k b)) : (l.map g).mapM f = .ok (l.map k) := by
  induction l with
  | nil => rfl
  | cons b l ih =>
    obtain ⟨hb, hl⟩ := List.forall_mem_cons.mp h
    rw [List.map_cons, List.mapM_cons, hb, ok_bind, ih hl]
    rfl

/-- Each result comes from an element. -/
theorem exists_of_mem_mapM {f : β → Except ε γ} {l : List β} {cs : List γ}
    (h : l.mapM f = .ok cs) {c : γ} (hc : c ∈ cs) : ∃ b ∈ l, f b = .ok c := by
  induction l generalizing cs with
  | nil =>
    obtain rfl := pure_eq_ok.mp h
    contradiction
  | cons b l ih =>
    rw [List.mapM_cons] at h
    obtain ⟨c', hb, h⟩ := bind_eq_ok.mp h
    obtain ⟨cs', hl, h⟩ := bind_eq_ok.mp h
    rw [← pure_eq_ok.mp h] at hc
    rcases List.mem_cons.mp hc with rfl | hc
    · exact ⟨b, List.mem_cons_self, hb⟩
    · obtain ⟨b', hb', hstep⟩ := ih hl hc
      exact ⟨b', List.mem_cons_of_mem _ hb', hstep⟩

/-- Each element has given a result. -/
theorem exists_ok_of_mapM {f : β → Except ε γ} {l : List β} {cs : List γ}
    (h : l.mapM f = .ok cs) {b : β} (hb : b ∈ l) : ∃ c, f b = .ok c := by
  induction l generalizing cs with
  | nil => contradiction
  | cons b' l ih =>
    rw [List.mapM_cons] at h
    obtain ⟨c, hc, h⟩ := bind_eq_ok.mp h
    obtain ⟨cs', hl, -⟩ := bind_eq_ok.mp h
    rcases List.mem_cons.mp hb with rfl | hb
    · exact ⟨c, hc⟩
    · exact ih hl hb

end QuboReduction

import QuboReduction.Proofs.Binarization
import QuboReduction.Proofs.Tightening

/-!
# Names of new variables

Slack variables and bits are named for what they belong to, with a mark `@` that the names of a
problem may be free of. A slack variable is then new. The bits of an integer variable are told from
each other by what follows the last mark, which is a number, and from those of another variable by
what precedes it.

## Main results

* `QuboReduction.Problem.append_separator_inj` — the parts of a text with a separator.
* `QuboReduction.Problem.slackName_fresh` — names of slack variables are new.
* `QuboReduction.Problem.bitName_injective` — a bit belongs to one variable and has one number.
* `QuboReduction.Problem.bitNames_nodup` — no two bits have the same name.
-/

namespace QuboReduction

namespace Problem

variable {p : Problem Rat} {v w : Variable} {k l : Nat}

theorem slackName_fresh (hplain : ∀ v ∈ p.vars, '@' ∉ v.name.toList) (c : Constraint Rat) :
    slackName c ∉ p.variableNames := by
  intro hmem
  obtain ⟨v, hv, hname⟩ := List.mem_map.mp hmem
  refine hplain v hv ?_
  rw [hname, slackName, String.toList_append]
  exact List.mem_append_right _ (by decide)

/-! ### Numbers in names -/

private theorem mark_notMem_toString (k : Nat) : '@' ∉ (toString k).toList := by
  intro hmem
  rw [Nat.toString_eq_repr, Nat.toList_repr] at hmem
  have hdigit := Nat.isDigit_of_mem_toDigits (by decide) (by decide) hmem
  exact absurd hdigit (by decide)

/-- Numbers are told by their decimal digits. -/
theorem toString_injective (h : toString k = toString l) : k = l := by
  have hdigits := congrArg String.toList h
  rw [Nat.toString_eq_repr, Nat.toString_eq_repr, Nat.toList_repr, Nat.toList_repr] at hdigits
  simpa using congrArg (fun digits => Nat.ofDigitChars 10 digits 0) hdigits

/-- Two texts that are told apart at the last separator agree before and after it. -/
theorem append_separator_inj {separator : Char} {s s' t t' : List Char} (ht : separator ∉ t)
    (ht' : separator ∉ t') (h : s ++ separator :: t = s' ++ separator :: t') :
    s = s' ∧ t = t' := by
  rcases List.append_eq_append_iff.mp h with ⟨u, hs, hu⟩ | ⟨u, hs, hu⟩
  · cases u with
    | nil => simp_all
    | cons a u =>
      rw [List.cons_append, List.cons.injEq] at hu
      exact absurd (hu.2 ▸ List.mem_append_right _ List.mem_cons_self) ht
  · cases u with
    | nil => simp_all
    | cons a u =>
      rw [List.cons_append, List.cons.injEq] at hu
      exact absurd (hu.2 ▸ List.mem_append_right _ List.mem_cons_self) ht'

/-! ### Bits -/

private theorem toList_bitName (v : Variable) (k : Nat) :
    (bitName v k).toList = v.name.toList ++ '@' :: (toString k).toList := by
  simp [bitName]

theorem bitName_injective (h : bitName v k = bitName w l) : v.name = w.name ∧ k = l := by
  have hlist := congrArg String.toList h
  rw [toList_bitName, toList_bitName] at hlist
  obtain ⟨hname, hnumber⟩ :=
    append_separator_inj (mark_notMem_toString k) (mark_notMem_toString l) hlist
  exact ⟨String.toList_inj.mp hname, toString_injective (String.toList_inj.mp hnumber)⟩

private theorem mem_bitNames {name : String} (h : name ∈ v.bitNames) :
    (v.isBinary = true ∧ name = v.name) ∨ v.isBinary = false ∧ ∃ k, name = bitName v k := by
  rw [Variable.bitNames] at h
  rw [Variable.isBinary]
  cases hdomain : v.domain with
  | binary =>
    rw [hdomain] at h
    exact Or.inl ⟨rfl, List.mem_singleton.mp h⟩
  | integer lower upper =>
    rw [hdomain] at h
    obtain ⟨k, -, hk⟩ := List.mem_map.mp h
    exact Or.inr ⟨rfl, k, hk.symm⟩

private theorem bitNames_nodup_of_variable (v : Variable) : v.bitNames.Nodup := by
  rw [Variable.bitNames]
  split
  · exact List.nodup_singleton _
  · exact List.Nodup.map (fun k l h => (bitName_injective h).2) List.nodup_range'

/-- Variables of different names have different bits, if marks are free in names of binary
variables. -/
private theorem disjoint_bitNames (hv : v.isBinary = true → '@' ∉ v.name.toList)
    (hw : w.isBinary = true → '@' ∉ w.name.toList) (hne : v.name ≠ w.name) :
    List.Disjoint v.bitNames w.bitNames := by
  have hmark : ∀ (v : Variable) k, '@' ∈ (bitName v k).toList := fun v k => by
    rw [toList_bitName]
    exact List.mem_append_right _ List.mem_cons_self
  intro name hmem hmem'
  rcases mem_bitNames hmem with ⟨hbinary, rfl⟩ | ⟨-, k, rfl⟩
  · rcases mem_bitNames hmem' with ⟨-, hname⟩ | ⟨-, l, hname⟩
    · exact hne hname
    · exact hv hbinary (hname ▸ hmark w l)
  · rcases mem_bitNames hmem' with ⟨hbinary, hname⟩ | ⟨-, l, hname⟩
    · exact hw hbinary (hname ▸ hmark v k)
    · exact hne (bitName_injective hname).1

/-- **No two bits have the same name**, if the names of variables differ and those of binary ones
have no mark. -/
theorem bitNames_nodup {vars : List Variable} (hnodup : (vars.map Variable.name).Nodup)
    (hplain : ∀ v ∈ vars, v.isBinary = true → '@' ∉ v.name.toList) :
    (vars.flatMap Variable.bitNames).Nodup := by
  refine List.nodup_flatMap.mpr ⟨fun v _ => bitNames_nodup_of_variable v, ?_⟩
  refine (List.pairwise_map.mp hnodup).imp_of_mem fun hv hw hne => ?_
  exact disjoint_bitNames (hplain _ hv) (hplain _ hw) hne

end Problem

end QuboReduction

import Mathlib.Data.List.Basic
import QuboReduction.Report

/-!
# Words of reports

An expression in a report is a row of words: numbers, names, and marks between them. Where a word
ends is told by the characters: a number has digits, signs and points, and a name starts with
another character, so the coefficient of a term ends where its label starts; no name has a blank, a
caret or a line break. So a text with such an expression in front of it is split into words in one
way only.

## Main definitions

* `QuboReduction.isIdentifier` — the names that are told apart from what surrounds them.
* `QuboReduction.Label` — what a term is about, with its text.
* `QuboReduction.Wording` — an expression as a row of words, with its text.

## Main results

* `QuboReduction.append_inj_of_class` — a word ends where another class of characters begins.
* `QuboReduction.Label.text_append_inj`, `QuboReduction.Wording.text_append_inj` — labels and
  expressions in front of a text.
-/

namespace QuboReduction

/-- A word of a class of characters, or of other elements, ends where another class begins. -/
theorem append_inj_of_class {β : Type} {P : β → Prop} {w w' r r' : List β} (hw : ∀ b ∈ w, P b)
    (hw' : ∀ b ∈ w', P b) (hr : ∀ b ∈ r.head?, ¬P b) (hr' : ∀ b ∈ r'.head?, ¬P b)
    (h : w ++ r = w' ++ r') : w = w' ∧ r = r' := by
  induction w generalizing w' with
  | nil =>
    cases w' with
    | nil => exact ⟨rfl, h⟩
    | cons b w' =>
      rw [List.nil_append, List.cons_append] at h
      exact absurd (hw' b List.mem_cons_self) (hr b (by rw [h]; rfl))
  | cons b w ih =>
    obtain ⟨hb, hw⟩ := List.forall_mem_cons.mp hw
    cases w' with
    | nil =>
      rw [List.nil_append, List.cons_append] at h
      exact absurd hb (hr' b (by rw [← h]; rfl))
    | cons b' w' =>
      obtain ⟨-, hw'⟩ := List.forall_mem_cons.mp hw'
      rw [List.cons_append, List.cons_append, List.cons.injEq] at h
      obtain ⟨rfl, rfl⟩ := ih hw hw' h.2
      exact ⟨by rw [h.1], rfl⟩

/-! ### Characters -/

/-- The characters of numbers. -/
def isNumeric (c : Char) : Bool := c.isDigit || c == '-' || c == '.'

/-- The characters at the start of names: letters, with which all characters outside of ASCII
count, and underscores. -/
def startsName (c : Char) : Bool := c.isAlpha || c == '_' || 128 ≤ c.toNat

/-- The characters after the first one of a name. -/
def continuesName (c : Char) : Bool := startsName c || c.isDigit

/-- A name is an identifier: a letter or an underscore, and then letters, digits and underscores. -/
def isIdentifier : List Char → Bool
  | [] => false
  | c :: rest => startsName c && rest.all continuesName

variable {c : Char} {w w' r r' : List Char}

theorem startsName_of_isNumeric (h : isNumeric c = true) : startsName c = false := by
  have hsmall : c.toNat < 58 := by
    simp only [isNumeric, Bool.or_eq_true, beq_iff_eq] at h
    rcases h with (h | rfl) | rfl
    · exact Nat.lt_succ_of_le (Char.isDigit_iff_toNat.mp h).2
    · decide
    · decide
  have hall : ∀ n < 58, isNumeric (Char.ofNat n) = true → startsName (Char.ofNat n) = false := by
    decide
  rw [← Char.ofNat_toNat c] at h ⊢
  exact hall c.toNat hsmall h

theorem continuesName_of_mem (h : isIdentifier w = true) (hc : c ∈ w) :
    continuesName c = true := by
  cases w with
  | nil => contradiction
  | cons b rest =>
    rw [isIdentifier, Bool.and_eq_true, List.all_eq_true] at h
    rcases List.mem_cons.mp hc with rfl | hc
    · rw [continuesName, h.1, Bool.true_or]
    · exact h.2 c hc

/-- A name does not start with a character of a number. -/
theorem not_isNumeric_head (h : isIdentifier w = true) (r : List Char) :
    ∀ c ∈ (w ++ r).head?, ¬isNumeric c = true := by
  cases w with
  | nil => contradiction
  | cons b rest =>
    rw [isIdentifier, Bool.and_eq_true] at h
    intro c hc hnumeric
    obtain rfl : b = c := Option.some.inj hc
    rw [startsName_of_isNumeric hnumeric] at h
    exact absurd h.1 Bool.false_ne_true

/-- A name has no line break. -/
theorem newline_notMem_of_isIdentifier (h : isIdentifier w = true) : '\n' ∉ w :=
  fun hmem => absurd (continuesName_of_mem h hmem) (by decide)

/-- A number has no line break. -/
theorem newline_notMem_of_isNumeric (h : ∀ c ∈ w, isNumeric c = true) : '\n' ∉ w :=
  fun hmem => absurd (h _ hmem) (by decide)

/-- A name ends where no further character of a name follows. -/
theorem name_append_inj (hw : isIdentifier w = true) (hw' : isIdentifier w' = true)
    (hr : ∀ c ∈ r.head?, ¬continuesName c = true) (hr' : ∀ c ∈ r'.head?, ¬continuesName c = true)
    (h : w ++ r = w' ++ r') : w = w' ∧ r = r' :=
  append_inj_of_class (fun _ => continuesName_of_mem hw) (fun _ => continuesName_of_mem hw')
    hr hr' h

/-! ### Labels -/

/-- What a term is about, by the names of its variables. -/
inductive Label where
  /-- A variable. -/
  | multiple (name : List Char)
  /-- The square of a variable. -/
  | square (name : List Char)
  /-- The product of two variables. -/
  | product (low high : List Char)

/-- What may stand behind a term: nothing, or a blank and the sign of a term or the mark of a
relation. -/
def EndsTerm (r : List Char) : Prop :=
  r = [] ∨ ∃ c rest, r = ' ' :: c :: rest ∧ c ∈ ['+', '-', '<', '>', '=']

namespace Label

variable {l l' : Label}

/-- The name at the start of a label. -/
def first : Label → List Char
  | multiple name => name
  | square name => name
  | product low _ => low

/-- What stands behind the first name. -/
def suffix : Label → List Char
  | multiple _ => []
  | square _ => ['^', '2']
  | product _ high => ' ' :: '*' :: ' ' :: high

/-- The text of a label. -/
def text (l : Label) : List Char := l.first ++ l.suffix

/-- All names are identifiers. -/
def IsNamed : Label → Prop
  | multiple name => isIdentifier name = true
  | square name => isIdentifier name = true
  | product low high => isIdentifier low = true ∧ isIdentifier high = true

theorem IsNamed.first (h : l.IsNamed) : isIdentifier l.first = true := by
  cases l with
  | multiple name => exact h
  | square name => exact h
  | product low high => exact h.1

theorem not_continuesName_head (l : Label) (hr : EndsTerm r) :
    ∀ c ∈ (l.suffix ++ r).head?, ¬continuesName c = true := by
  cases l with
  | multiple name =>
    rcases hr with rfl | ⟨c, rest, rfl, -⟩
    · simp [suffix]
    · simp only [suffix, List.nil_append, List.head?_cons, Option.mem_some_iff]
      rintro _ rfl
      decide
  | square name =>
    simp only [suffix, List.cons_append, List.head?_cons, Option.mem_some_iff]
    rintro _ rfl
    decide
  | product low high =>
    simp only [suffix, List.cons_append, List.head?_cons, Option.mem_some_iff]
    rintro _ rfl
    decide

theorem not_continuesName_of_endsTerm (hr : EndsTerm r) :
    ∀ c ∈ r.head?, ¬continuesName c = true := by
  have hhead := (multiple []).not_continuesName_head hr
  rwa [suffix, List.nil_append] at hhead

/-- The end of a term is no caret, and no blank with a star behind it. -/
theorem not_endsTerm (hr : EndsTerm r) :
    (∀ rest, r ≠ '^' :: rest) ∧ ∀ rest, r ≠ ' ' :: '*' :: rest := by
  rcases hr with rfl | ⟨c, rest, rfl, hc⟩
  · simp
  · refine ⟨by simp, fun rest' heq => ?_⟩
    simp only [List.cons.injEq] at heq
    rw [heq.2.1] at hc
    revert hc
    decide

/-- **A label** is told from what stands behind it. -/
theorem text_append_inj (hl : l.IsNamed) (hl' : l'.IsNamed) (hr : EndsTerm r) (hr' : EndsTerm r')
    (h : l.text ++ r = l'.text ++ r') : l = l' ∧ r = r' := by
  rw [text, text, List.append_assoc, List.append_assoc] at h
  obtain ⟨hname, h⟩ := name_append_inj hl.first hl'.first (l.not_continuesName_head hr)
    (l'.not_continuesName_head hr') h
  obtain ⟨hcaret, hstar⟩ := not_endsTerm hr
  obtain ⟨hcaret', hstar'⟩ := not_endsTerm hr'
  cases l with
  | multiple n =>
    cases l' with
    | multiple n' => exact ⟨congrArg multiple hname, h⟩
    | square n' => exact absurd h (hcaret _)
    | product n' m' => exact absurd h (hstar _)
  | square n =>
    cases l' with
    | multiple n' => exact absurd h.symm (hcaret' _)
    | square n' => exact ⟨congrArg square hname, by simpa [suffix] using h⟩
    | product n' m' => simp [suffix] at h
  | product n m =>
    cases l' with
    | multiple n' => exact absurd h.symm (hstar' _)
    | square n' => simp [suffix] at h
    | product n' m' =>
      simp only [suffix, List.cons_append, List.cons.injEq, true_and] at h
      obtain ⟨hhigh, h⟩ := name_append_inj hl.2 hl'.2 (not_continuesName_of_endsTerm hr)
        (not_continuesName_of_endsTerm hr') h
      have hlow : n = n' := hname
      exact ⟨by rw [hlow, hhigh], h⟩

/-- A label does not start with a character of a number. -/
theorem not_isNumeric_head (hl : l.IsNamed) (r : List Char) :
    ∀ c ∈ (l.text ++ r).head?, ¬isNumeric c = true := by
  rw [text, List.append_assoc]
  exact QuboReduction.not_isNumeric_head hl.first _

theorem newline_notMem (hl : l.IsNamed) : '\n' ∉ l.text := by
  rw [text, List.mem_append, not_or]
  refine ⟨newline_notMem_of_isIdentifier hl.first, ?_⟩
  cases l with
  | multiple n => simp [suffix]
  | square n => simp [suffix]
  | product n m => simpa [suffix] using newline_notMem_of_isIdentifier hl.2

end Label

/-! ### Expressions -/

/-- A term behind other terms. -/
@[ext]
structure TermWording where
  /-- The sign. -/
  sign : Char
  /-- The size of the coefficient, and nothing if it is left out. -/
  size : List Char
  /-- What the term is about. -/
  label : Label

/-- An expression as a row of words. -/
@[ext]
structure Wording where
  /-- The constant at the start, or the coefficient of the first term. -/
  head : List Char
  /-- What the first term is about, unless the expression starts with a constant. -/
  label? : Option Label
  /-- The terms behind that. -/
  rest : List TermWording

/-- What may stand behind an expression: nothing, or a blank and the mark of a relation. -/
def EndsExpression (r : List Char) : Prop :=
  r = [] ∨ ∃ c rest, r = ' ' :: c :: rest ∧ c ∈ ['<', '>', '=']

theorem EndsExpression.endsTerm (hr : EndsExpression r) : EndsTerm r := by
  rcases hr with rfl | ⟨c, rest, rfl, hc⟩
  · exact Or.inl rfl
  · refine Or.inr ⟨c, rest, rfl, ?_⟩
    exact List.mem_cons_of_mem _ (List.mem_cons_of_mem _ hc)

theorem EndsTerm.not_isNumeric_head (hr : EndsTerm r) : ∀ c ∈ r.head?, ¬isNumeric c = true := by
  rcases hr with rfl | ⟨c, rest, rfl, -⟩
  · simp
  · simp only [List.head?_cons, Option.mem_some_iff]
    rintro _ rfl
    decide

namespace TermWording

variable {t t' : TermWording} {ts ts' : List TermWording}

/-- The text of a term. -/
def text (t : TermWording) : List Char := ' ' :: t.sign :: ' ' :: (t.size ++ t.label.text)

/-- The words are of the right kinds. -/
structure IsProper (t : TermWording) : Prop where
  /-- The sign is one. -/
  sign : t.sign ∈ ['+', '-']
  /-- The size is a number or left out. -/
  size : ∀ c ∈ t.size, isNumeric c = true
  /-- The names are identifiers. -/
  label : t.label.IsNamed

theorem endsTerm (hts : ∀ t ∈ ts, t.IsProper) (hr : EndsExpression r) :
    EndsTerm (ts.flatMap text ++ r) := by
  cases ts with
  | nil => exact hr.endsTerm
  | cons t ts =>
    refine Or.inr ⟨t.sign, _, rfl, ?_⟩
    have hsign := (hts t List.mem_cons_self).sign
    simp only [List.mem_cons, List.not_mem_nil, or_false] at hsign ⊢
    tauto

/-- A sign is no mark of a relation. -/
theorem not_endsExpression (ht : t.IsProper) (r : List Char) : ¬EndsExpression (t.text ++ r) := by
  rintro (h | ⟨c, rest, h, hc⟩)
  · simp [text] at h
  · simp only [text, List.cons_append, List.cons.injEq, true_and] at h
    have hsign := ht.sign
    rw [h.1] at hsign
    simp only [List.mem_cons, List.not_mem_nil, or_false] at hsign hc
    rcases hsign with rfl | rfl <;> revert hc <;> decide

/-- **A row of terms** is told from what stands behind it. -/
theorem flatMap_text_append_inj (hts : ∀ t ∈ ts, t.IsProper) (hts' : ∀ t ∈ ts', t.IsProper)
    (hr : EndsExpression r) (hr' : EndsExpression r')
    (h : ts.flatMap text ++ r = ts'.flatMap text ++ r') : ts = ts' ∧ r = r' := by
  induction ts generalizing ts' with
  | nil =>
    cases ts' with
    | nil => exact ⟨rfl, h⟩
    | cons t' ts' =>
      rw [List.flatMap_nil, List.nil_append, List.flatMap_cons, List.append_assoc] at h
      exact absurd (h ▸ hr) (not_endsExpression (hts' t' List.mem_cons_self) _)
  | cons t ts ih =>
    obtain ⟨ht, hts⟩ := List.forall_mem_cons.mp hts
    cases ts' with
    | nil =>
      rw [List.flatMap_nil, List.nil_append, List.flatMap_cons, List.append_assoc] at h
      exact absurd (h ▸ hr') (not_endsExpression ht _)
    | cons t' ts' =>
      obtain ⟨ht', hts'⟩ := List.forall_mem_cons.mp hts'
      simp only [List.flatMap_cons, text, List.cons_append, List.append_assoc, List.cons.injEq,
        true_and] at h
      obtain ⟨hsign, h⟩ := h
      obtain ⟨hsize, h⟩ := append_inj_of_class ht.size ht'.size
        (Label.not_isNumeric_head ht.label _) (Label.not_isNumeric_head ht'.label _) h
      obtain ⟨hlabel, h⟩ := Label.text_append_inj ht.label ht'.label (endsTerm hts hr)
        (endsTerm hts' hr') h
      obtain ⟨hrest, hbehind⟩ := ih hts hts' h
      exact ⟨congrArg₂ List.cons (TermWording.ext hsign hsize hlabel) hrest, hbehind⟩

theorem newline_notMem (ht : t.IsProper) : '\n' ∉ t.text := by
  have hsign : t.sign ≠ '\n' := fun h => absurd (h ▸ ht.sign) (by decide)
  have hsize := newline_notMem_of_isNumeric ht.size
  simp [text, hsign.symm, hsize, Label.newline_notMem ht.label]

end TermWording

namespace Wording

variable {e e' : Wording}

/-- What stands behind the number at the start. -/
def tail (e : Wording) : List Char :=
  (e.label?.map Label.text).getD [] ++ e.rest.flatMap TermWording.text

/-- The text of an expression. -/
def text (e : Wording) : List Char := e.head ++ e.tail

/-- The words are of the right kinds. -/
structure IsProper (e : Wording) : Prop where
  /-- The number at the start is one or left out. -/
  head : ∀ c ∈ e.head, isNumeric c = true
  /-- The names in the first term are identifiers. -/
  label? : ∀ l ∈ e.label?, l.IsNamed
  /-- The terms behind it are proper. -/
  rest : ∀ t ∈ e.rest, t.IsProper

theorem IsProper.not_isNumeric_head (he : e.IsProper) (hr : EndsExpression r) :
    ∀ c ∈ (e.tail ++ r).head?, ¬isNumeric c = true := by
  rw [tail, List.append_assoc]
  cases hlabel : e.label? with
  | none => exact (TermWording.endsTerm he.rest hr).not_isNumeric_head
  | some l => exact Label.not_isNumeric_head (he.label? l hlabel) _

/-- A label is no end of a term. -/
theorem label_append_ne {l : Label} (hl : l.IsNamed) (hr : EndsTerm r) (r' : List Char) :
    l.text ++ r' ≠ r := by
  intro h
  have hfirst := hl.first
  cases hname : l.first with
  | nil => rw [hname] at hfirst; contradiction
  | cons c name =>
    rw [hname, isIdentifier, Bool.and_eq_true] at hfirst
    refine Label.not_continuesName_of_endsTerm hr c ?_ ?_
    · rw [← h, Label.text, hname]
      rfl
    · rw [continuesName, hfirst.1, Bool.true_or]

/-- **An expression** is told from what stands behind it, and so are its words. -/
theorem text_append_inj (he : e.IsProper) (he' : e'.IsProper) (hr : EndsExpression r)
    (hr' : EndsExpression r') (h : e.text ++ r = e'.text ++ r') : e = e' ∧ r = r' := by
  rw [text, text, List.append_assoc, List.append_assoc] at h
  obtain ⟨hhead, h⟩ := append_inj_of_class he.head he'.head (he.not_isNumeric_head hr)
    (he'.not_isNumeric_head hr') h
  have hends := TermWording.endsTerm he.rest hr
  have hends' := TermWording.endsTerm he'.rest hr'
  rw [tail, tail, List.append_assoc, List.append_assoc] at h
  obtain ⟨head, label?, rest⟩ := e
  obtain ⟨head', label?', rest'⟩ := e'
  cases label? with
  | none =>
    cases label?' with
    | none =>
      obtain ⟨hrest, hbehind⟩ :=
        TermWording.flatMap_text_append_inj he.rest he'.rest hr hr' h
      exact ⟨Wording.ext hhead rfl hrest, hbehind⟩
    | some l' => exact absurd h.symm (label_append_ne (he'.label? l' rfl) hends _)
  | some l =>
    cases label?' with
    | none => exact absurd h (label_append_ne (he.label? l rfl) hends' _)
    | some l' =>
      obtain ⟨hlabel, h⟩ := Label.text_append_inj (he.label? l rfl) (he'.label? l' rfl) hends
        hends' h
      obtain ⟨hrest, hbehind⟩ :=
        TermWording.flatMap_text_append_inj he.rest he'.rest hr hr' h
      exact ⟨Wording.ext hhead (congrArg some hlabel) hrest, hbehind⟩

theorem newline_notMem (he : e.IsProper) : '\n' ∉ e.text := by
  have hhead := newline_notMem_of_isNumeric he.head
  have hlabel : '\n' ∉ (e.label?.map Label.text).getD [] := by
    cases h : e.label? with
    | none => simp
    | some l => exact Label.newline_notMem (he.label? l h)
  have hrest : '\n' ∉ e.rest.flatMap TermWording.text := fun h => by
    obtain ⟨t, ht, hmem⟩ := List.mem_flatMap.mp h
    exact TermWording.newline_notMem (he.rest t ht) hmem
  simp [text, tail, hhead, hlabel, hrest]

end Wording

/-! ### Integers and relations -/

theorem isNumeric_of_mem_toString {n : Int} {c : Char} (h : c ∈ (toString n).toList) :
    isNumeric c = true := by
  have hdigit : ∀ {m : Nat}, c ∈ m.repr.toList → isNumeric c = true := fun h => by
    rw [Nat.toList_repr] at h
    rw [isNumeric, Nat.isDigit_of_mem_toDigits (by decide) (by decide) h, Bool.true_or,
      Bool.true_or]
  cases n with
  | ofNat m => exact hdigit h
  | negSucc m =>
    change c ∈ ("-" ++ (m + 1).repr).toList at h
    rw [String.toList_append, List.mem_append] at h
    rcases h with h | h
    · rw [List.mem_singleton.mp h]
      decide
    · exact hdigit h

theorem Relation.endsExpression_symbol (r : Relation) (rest : List Char) :
    EndsExpression (" ".toList ++ (r.symbol.toList ++ rest)) := by
  cases r <;> exact Or.inr ⟨_, _, rfl, by decide⟩

theorem Relation.symbol_append_inj {r r' : Relation} {rest rest' : List Char}
    (h : r.symbol.toList ++ rest = r'.symbol.toList ++ rest') : r = r' ∧ rest = rest' := by
  have hlength : ∀ r : Relation, r.symbol.toList.length = 2 := by
    intro r
    cases r <;> rfl
  obtain ⟨hsymbol, hrest⟩ := List.append_inj h ((hlength r).trans (hlength r').symm)
  refine ⟨?_, hrest⟩
  revert hsymbol
  cases r <;> cases r' <;> decide

theorem Relation.newline_notMem_symbol (r : Relation) : '\n' ∉ r.symbol.toList := by
  cases r <;> decide

end QuboReduction

import QuboReduction.Binary64
import QuboReduction.Decimal
import QuboReduction.NumberText

/-!
# Shortest decimals of doubles

The reals that round to a double form an interval around it, which includes its ends exactly when
the significand is even. A double is written with the fewest digits that lie in this interval; of
several such decimals the one nearest to the double is taken, and where two are equally near a rule
decides.

Doubles have two texts. Reports write every number positionally, with an exact tie going away from
zero. Documents write numbers from `0.00001` up to but not including `1e+16` positionally, with a
point in every number, all others in scientific notation, and a tie goes to the even digit.

## Main definitions

* `QuboReduction.Binary64.readsBack` — whether a decimal rounds to a double.
* `QuboReduction.Binary64.shortest` — the shortest decimal that does.
* `QuboReduction.Binary64.reportText`, `QuboReduction.Binary64.documentText` — the two texts.
-/

namespace QuboReduction

namespace Binary64

/-! ### The rounding interval -/

/-- Compares `a * 10 ^ i` with `n * 2 ^ j`. -/
def compareScaled (a : Nat) (i : Int) (n : Nat) (j : Int) : Ordering :=
  compare (a * Nat.pow 10 i.toNat * Nat.pow 2 (-j).toNat)
    (n * Nat.pow 2 j.toNat * Nat.pow 10 (-i).toNat)

/-- Whether a decimal lies among the reals that round to a double. -/
def readsBack (v : Binary64) (d : Decimal) : Bool :=
  let lower := 4 * v.significand - (if v.narrowBelow then 1 else 2)
  let upper := 4 * v.significand + 2
  let atLower := compareScaled d.digits d.exponent lower (v.exponent - 2)
  let atUpper := compareScaled d.digits d.exponent upper (v.exponent - 2)
  let closed := v.significand % 2 == 0
  (atLower == .gt || closed && atLower == .eq) && (atUpper == .lt || closed && atUpper == .eq)

/-! ### Selecting digits -/

/-- Which of two equally near decimals is taken. -/
inductive Tie where
  /-- The one whose last digit is even. -/
  | toEven
  /-- The larger one. -/
  | awayFromZero
deriving DecidableEq

/-- The least exponent `k` with the double below `10 ^ k`. -/
def scale (v : Binary64) : Int :=
  let guess := ((v.significand.log2 + v.exponent) * 30103).fdiv 100000
  if compareScaled 1 guess v.significand v.exponent == .gt then guess
  else if compareScaled 1 (guess + 1) v.significand v.exponent == .gt then guess + 1
  else guess + 2

/-- The largest multiple of `10 ^ e` that is not above the double, divided by `10 ^ e`. -/
def gridBelow (v : Binary64) (e : Int) : Nat :=
  v.significand * Nat.pow 2 v.exponent.toNat * Nat.pow 10 (-e).toNat /
    (Nat.pow 2 (-v.exponent).toNat * Nat.pow 10 e.toNat)

/-- The decimal with last digit at `10 ^ e` that rounds to the double and is nearest to it. -/
def onGrid (tie : Tie) (v : Binary64) (e : Int) : Option Decimal :=
  let low := v.gridBelow e
  match v.readsBack ⟨low, e⟩, v.readsBack ⟨low + 1, e⟩ with
  | false, false => none
  | true, false => some ⟨low, e⟩
  | false, true => some ⟨low + 1, e⟩
  | true, true =>
    match compareScaled (2 * low + 1) e (2 * v.significand) v.exponent with
    | .gt => some ⟨low, e⟩
    | .lt => some ⟨low + 1, e⟩
    | .eq =>
      if tie = .toEven ∧ low % 2 = 0 then some ⟨low, e⟩ else some ⟨low + 1, e⟩

/-- The exact decimal value of a double. -/
def exact (v : Binary64) : Decimal :=
  if 0 ≤ v.exponent then ⟨v.significand * Nat.pow 2 v.exponent.toNat, 0⟩
  else ⟨v.significand * Nat.pow 5 (-v.exponent).toNat, v.exponent⟩

/-- The decimal with the fewest digits that rounds to a double. Seventeen digits always suffice;
were they not to, the exact value would be taken. -/
def shortest (tie : Tie) (v : Binary64) : Decimal :=
  if v.significand = 0 then ⟨0, 0⟩
  else
    let k := v.scale
    let found := (List.range 17).findSome? fun n => v.onGrid tie (k - (n + 1 : Nat))
    (found.getD v.exact).trim

/-! ### Texts -/

/-- The text of a finite double in a style. -/
def text (tie : Tie) (style : Decimal.Style) (v : Binary64) : String :=
  let digits := (v.shortest tie).write style
  String.ofList (if v.negative then '-' :: digits else digits)

/-- The style of reports: all numbers positionally, integers without a point. -/
def reportStyle : Decimal.Style := ⟨fun _ => true, []⟩

/-- The style of documents: numbers of moderate size positionally, integers with a point and a
zero. -/
def documentStyle : Decimal.Style := ⟨fun e => -5 ≤ e && e < 16, ['.', '0']⟩

/-- The text of a double in reports and messages. -/
def reportText (x : Float) : String :=
  if x.isNaN then "NaN"
  else if x.isInf then (if x < 0 then "-inf" else "inf")
  else (ofFloat x).text .awayFromZero reportStyle

/-- The text of a double in documents, which have no text for what is not a finite number. -/
def documentText (x : Float) : String :=
  if x.isFinite then (ofFloat x).text .toEven documentStyle else "null"

end Binary64

instance : NumberText Float := ⟨Binary64.reportText, Binary64.documentText⟩

end QuboReduction

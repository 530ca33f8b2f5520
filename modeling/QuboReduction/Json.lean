import QuboReduction.Scalar

/-!
# JSON values

Documents are JSON values. An integer literal that fits into 64 bits stays apart from other numbers,
because indices and bounds are integers and coefficients are not, and the fields of an object keep
their order and may repeat. A string may be written with half of a pair of character codes, which
is no text; a value with such a string can be passed over but not be used.

## Main definitions

* `QuboReduction.Json` — values.
* `QuboReduction.Json.number` — the value of a scalar, `null` for what is not a finite number.
* `QuboReduction.Json.mergeRepeated` — the value in which a repeated field has its last value.
-/

namespace QuboReduction

/-- A JSON value whose numbers are integers and scalars. -/
inductive Json (α : Type) where
  /-- The value `null`. -/
  | null
  /-- A truth value. -/
  | bool (value : Bool)
  /-- An integer. -/
  | int (value : Int)
  /-- A number that is not given as an integer of at most 64 bits. -/
  | real (value : α)
  /-- A string. -/
  | str (value : String)
  /-- An array. -/
  | arr (items : List (Json α))
  /-- An object. -/
  | obj (fields : List (String × Json α))
  /-- A string that is no text, or an object with such a name. -/
  | unreadable

namespace Json

variable {α : Type}

/-- The value of a scalar; documents have no number for what is not finite. -/
def number [Scalar α] (x : α) : Json α := if Scalar.isFinite x then real x else null

/-- The value of an index or a length. -/
def index (n : Nat) : Json α := int n

/-- Fields in which a name occurs once, with its last value. -/
def lastFields : List (String × Json α) → List (String × Json α)
  | [] => []
  | (name, value) :: rest =>
    if rest.any fun f => f.1 == name then lastFields rest else (name, value) :: lastFields rest

mutual

/-- The value in which a field that is repeated within an object has its last value. -/
def mergeRepeated : Json α → Json α
  | arr items => arr (mergeItems items)
  | obj fields => obj (lastFields (mergeFields fields))
  | value => value

/-- `mergeRepeated` on the items of an array. -/
def mergeItems : List (Json α) → List (Json α)
  | [] => []
  | item :: rest => mergeRepeated item :: mergeItems rest

/-- `mergeRepeated` on the fields of an object. -/
def mergeFields : List (String × Json α) → List (String × Json α)
  | [] => []
  | (name, value) :: rest => (name, mergeRepeated value) :: mergeFields rest

end

end Json

end QuboReduction

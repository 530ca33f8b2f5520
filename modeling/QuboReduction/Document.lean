import QuboReduction.Json
import QuboReduction.Problem

/-!
# Documents

Problems, pipelines and conversions have a form as JSON values. A structure is an object, whose
fields may come in any order and among other fields, or an array of its fields in their order, from
the end of which fields with a default may be missing. An alternative is given by its name, or by an
object with that name and what belongs to it.

## Main definitions

* `QuboReduction.DocumentError` — why a value is not the form of anything.
* `QuboReduction.Json.members` — the fields of a structure.
* `QuboReduction.Json.alternative` — the name and content of an alternative.
* `QuboReduction.Json.toScalar`, `QuboReduction.Json.toIndex`, `QuboReduction.Json.toInteger` —
  numbers.
-/

namespace QuboReduction

/-- Why a document is refused. -/
inductive DocumentError where
  /-- The text or value does not have the required form. -/
  | malformed
  /-- The form is right, but no such problem can be built. -/
  | invalid (cause : ProblemError)
deriving DecidableEq

namespace Json

variable {α β γ : Type}

/-! ### Simple values -/

/-- A string. -/
def toText : Json α → Except DocumentError String
  | str s => .ok s
  | _ => .error .malformed

/-- A finite scalar, which may be given as an integer. -/
def toScalar [Scalar α] : Json α → Except DocumentError α
  | int n => .ok (Scalar.ofInt n)
  | real x => if Scalar.isFinite x then .ok x else .error .malformed
  | _ => .error .malformed

/-- An integer of 64 bits with a sign. -/
def toInteger : Json α → Except DocumentError Int
  | int n =>
    if Int64.minValue.toInt ≤ n ∧ n ≤ Int64.maxValue.toInt then .ok n else .error .malformed
  | _ => .error .malformed

/-- A natural number of 64 bits. -/
def toIndex : Json α → Except DocumentError Nat
  | int n => if 0 ≤ n ∧ n < UInt64.size then .ok n.toNat else .error .malformed
  | _ => .error .malformed

/-- An array whose items all have a form. -/
def toList (item : Json α → Except DocumentError β) : Json α → Except DocumentError (List β)
  | arr items => items.mapM item
  | _ => .error .malformed

/-- An array of two items. -/
def toPair (first : Json α → Except DocumentError β) (second : Json α → Except DocumentError γ) :
    Json α → Except DocumentError (β × γ)
  | arr [a, b] => do
    let a ← first a
    let b ← second b
    pure (a, b)
  | _ => .error .malformed

/-- An array of three items. -/
def toTriple {δ : Type} (first : Json α → Except DocumentError β)
    (second : Json α → Except DocumentError γ) (third : Json α → Except DocumentError δ) :
    Json α → Except DocumentError (β × γ × δ)
  | arr [a, b, c] => do
    let a ← first a
    let b ← second b
    let c ← third c
    pure (a, b, c)
  | _ => .error .malformed

/-! ### Structures -/

/-- The value of a field, if there is one; a field that is repeated is refused. -/
def member? (name : String) (fields : List (String × Json α)) :
    Except DocumentError (Option (Json α)) :=
  match fields.filter fun f => f.1 == name with
  | [] => .ok none
  | [f] => .ok (some f.2)
  | _ => .error .malformed

/-- The values of the named fields of a structure, as far as there are any. -/
def members (names : List String) : Json α → Except DocumentError (List (Option (Json α)))
  | obj fields => names.mapM fun name => member? name fields
  | arr items =>
    if items.length ≤ names.length then
      .ok (items.map some ++ List.replicate (names.length - items.length) none)
    else .error .malformed
  | _ => .error .malformed

/-- A field without a default. -/
def required (form : Json α → Except DocumentError β) : Option (Json α) → Except DocumentError β
  | some v => form v
  | none => .error .malformed

/-- A field with a default. -/
def optional (default : β) (form : Json α → Except DocumentError β) :
    Option (Json α) → Except DocumentError β
  | some v => form v
  | none => .ok default

/-! ### Alternatives -/

/-- The name of an alternative, and its content if it is given as an object. -/
def alternative : Json α → Except DocumentError (String × Option (Json α))
  | str name => .ok (name, none)
  | obj [(name, content)] => .ok (name, some content)
  | _ => .error .malformed

/-- Refuses a content for an alternative that has none. -/
def noContent : Option (Json α) → Except DocumentError Unit
  | none => .ok ()
  | some null => .ok ()
  | some _ => .error .malformed

/-- One of several alternatives without content. -/
def choose (choices : List (String × β)) (v : Json α) : Except DocumentError β := do
  let (name, content) ← alternative v
  noContent content
  match choices.lookup name with
  | some b => pure b
  | none => throw .malformed

end Json

end QuboReduction

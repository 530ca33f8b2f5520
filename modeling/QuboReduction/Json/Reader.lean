import QuboReduction.Json.Token

/-!
# Reading JSON

Tokens are put together to a value one after another. The arrays and objects under way form a stack;
a token is put into the innermost of them, opens another one or closes it. Of a document that breaks
off, the items or fields of the outermost array or object that were read before that place are still
there. The names of the outermost object have to be texts, because documents never pass them over.

## Main definitions

* `QuboReduction.Json.Assembly` — the arrays and objects under way.
* `QuboReduction.Json.Reading` — a value with what is known about the text around it.
* `QuboReduction.Json.read` — the reading of a text.
-/

namespace QuboReduction

namespace Json

variable {α : Type}

/-- An array or object under way, with its items or fields in reverse. -/
inductive Frame (α : Type) where
  /-- An array. -/
  | array (items : List (Json α))
  /-- An object between two fields. -/
  | object (fields : List (Option String × Json α))
  /-- An object within a field. -/
  | field (fields : List (Option String × Json α)) (name : Option String)

/-- What may come next. -/
inductive Expected where
  /-- A value. -/
  | value
  /-- The first item of an array, or its end. -/
  | firstItem
  /-- The name of a field. -/
  | name
  /-- The name of the first field of an object, or its end. -/
  | firstName
  /-- The colon after the name of a field. -/
  | colon
  /-- A comma, or the end of the innermost array or object. -/
  | continuation
  /-- Nothing, since the value is complete. -/
  | nothing
  /-- Nothing, since the tokens so far do not begin a value. -/
  | impossible
deriving DecidableEq

/-- The arrays and objects under way, the innermost one first. -/
structure Assembly (α : Type) where
  /-- The arrays and objects. -/
  stack : List (Frame α)
  /-- What may come next. -/
  expected : Expected
  /-- The value, once it is complete. -/
  result : Json α
  /-- Whether something follows the complete value. -/
  hasMore : Bool

namespace Assembly

/-- Before the first token. -/
def start : Assembly α := ⟨[], .value, .null, false⟩

/-- Tokens that do not begin a value; what was assembled stays. -/
def fail (a : Assembly α) : Assembly α := { a with expected := .impossible }

/-- A complete value put into the innermost array or object of a stack. -/
def put (a : Assembly α) (stack : List (Frame α)) (value : Json α) : Assembly α :=
  match stack with
  | [] => { a with stack := [], expected := .nothing, result := value }
  | .array items :: rest =>
    { a with stack := .array (value :: items) :: rest, expected := .continuation }
  | .field fields name :: rest =>
    { a with stack := .object ((name, value) :: fields) :: rest, expected := .continuation }
  | .object _ :: _ => a.fail

/-- A token where a value may stand. -/
def takeValue (a : Assembly α) (token : Token α) : Assembly α :=
  match token with
  | .openArray => { a with stack := .array [] :: a.stack, expected := .firstItem }
  | .openObject => { a with stack := .object [] :: a.stack, expected := .firstName }
  | .simple value => a.put a.stack value
  | .text (some value) => a.put a.stack (str value)
  | .text none => a.put a.stack unreadable
  | _ => a.fail

/-- A token where the name of a field may stand. -/
def takeName (a : Assembly α) (token : Token α) : Assembly α :=
  match a.stack, token with
  | .object fields :: rest, .text name =>
    if name.isNone && rest.isEmpty then a.fail
    else { a with stack := .field fields name :: rest, expected := .colon }
  | _, _ => a.fail

/-- The object with the given fields, which are in reverse; it is not readable when a name is no
text. -/
def objectOf (fields : List (Option String × Json α)) : Json α :=
  match fields.reverse.mapM fun f => f.1.map fun name => (name, f.2) with
  | some named => obj named
  | none => unreadable

/-- The end of the innermost array or object, if the token is that. -/
def takeEnd? (a : Assembly α) (token : Token α) : Option (Assembly α) :=
  match a.stack, token with
  | .array items :: rest, .closeArray => some (a.put rest (arr items.reverse))
  | .object fields :: rest, .closeObject => some (a.put rest (objectOf fields))
  | _, _ => none

/-- A token after a complete item or field. -/
def takeContinuation (a : Assembly α) (token : Token α) : Assembly α :=
  match a.takeEnd? token, a.stack, token with
  | some b, _, _ => b
  | none, .array _ :: _, .comma => { a with expected := .value }
  | none, .object _ :: _, .comma => { a with expected := .name }
  | _, _, _ => a.fail

/-- The assembly after one more token. -/
def step (a : Assembly α) (token : Token α) : Assembly α :=
  match a.expected with
  | .value => a.takeValue token
  | .firstItem => (a.takeEnd? token).getD (a.takeValue token)
  | .name => a.takeName token
  | .firstName => (a.takeEnd? token).getD (a.takeName token)
  | .colon =>
    match token with
    | .colon => { a with expected := .value }
    | _ => a.fail
  | .continuation => a.takeContinuation token
  | .nothing => { a with hasMore := true }
  | .impossible => a

/-- The value of an array or object under way. -/
def ofFrame : Frame α → Json α
  | .array items => arr items.reverse
  | .object fields => objectOf fields
  | .field fields _ => objectOf fields

/-- The complete value, or the outermost array or object as far as it was read. -/
def outermost (a : Assembly α) : Json α :=
  match a.stack.getLast? with
  | some frame => ofFrame frame
  | none => a.result

end Assembly

/-- A value with what is known about the text around it. -/
structure Reading (α : Type) where
  /-- The value; the outermost items or fields of it when the text breaks off. -/
  value : Json α
  /-- Whether the value reached its end. -/
  isComplete : Bool
  /-- Whether nothing but white space follows the value. -/
  isClean : Bool

/-- The reading of a text. -/
def read [Scalar α] (text : String) : Reading α :=
  let (found, isSound) := tokens text
  let a := found.foldl Assembly.step Assembly.start
  ⟨a.outermost, a.expected = .nothing, isSound && !a.hasMore⟩

/-- The value of a text that consists of one value. -/
def ofText? [Scalar α] (text : String) : Option (Json α) :=
  let r := read text
  if r.isComplete && r.isClean then some r.value else none

end Json

end QuboReduction

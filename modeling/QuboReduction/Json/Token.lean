import QuboReduction.Decimal
import QuboReduction.Json

/-!
# JSON tokens

The text of a document is cut into tokens one character after another. A character either belongs
to the token under way or ends it; a text that stops making sense has the tokens before that place
and is marked as broken. A string makes sense as long as each of its character codes does; whether
the codes together are a text is a question apart.

## Main definitions

* `QuboReduction.Json.Token` — punctuation, strings and other simple values.
* `QuboReduction.Json.ofWord?` — the value of a number or of one of the words `null`, `true` and
  `false`.
* `QuboReduction.Json.charsOfCodes` — the characters that the codes of a string stand for.
* `QuboReduction.Json.tokens` — the tokens of a text, and whether all of it makes sense.
-/

namespace QuboReduction

namespace Json

/-! ### Numbers and words -/

/-- A number as it is written. -/
structure NumberLiteral where
  /-- Whether there is a minus sign. -/
  isNegative : Bool
  /-- The decimal without its sign. -/
  decimal : Decimal
  /-- Whether there is neither a fraction nor an exponent. -/
  isInteger : Bool

/-- A number without leading zeros, with digits on both sides of its point. -/
def numberLiteral? (text : List Char) : Option NumberLiteral := do
  let (isNegative, unsigned) := match text with
    | '-' :: rest => (true, rest)
    | rest => (false, rest)
  let (whole, rest) := Decimal.spanDigits unsigned
  guard (whole ≠ [] ∧ (whole.length = 1 ∨ whole.head? ≠ some '0'))
  let (hasPoint, fraction, rest) := match rest with
    | '.' :: rest => (true, Decimal.spanDigits rest)
    | rest => (false, [], rest)
  guard (¬ hasPoint ∨ fraction ≠ [])
  let exponent ← Decimal.exponent? rest
  pure {
    isNegative
    decimal := ⟨Decimal.naturalOf (whole ++ fraction), exponent - fraction.length⟩
    isInteger := ¬ hasPoint && rest.isEmpty }

variable {α : Type} [Scalar α]

/-- The scalar nearest to a number as it is written. -/
def NumberLiteral.toScalar (n : NumberLiteral) : α :=
  let magnitude : α := Scalar.ofDecimal n.decimal.digits n.decimal.exponent
  if n.isNegative then -magnitude else magnitude

/-- The value of a number: an integer when it is written as one and fits into 64 bits, signed or
unsigned, with the exception of negative zero. -/
def NumberLiteral.toJson (n : NumberLiteral) : Json α :=
  let value : Int := if n.isNegative then -(n.decimal.digits : Int) else n.decimal.digits
  let isZero := n.isNegative && value == 0
  if n.isInteger && !isZero && Int64.minValue.toInt ≤ value && value < UInt64.size then
    int value
  else real n.toScalar

/-- The value that a word stands for. -/
def ofWord? (word : List Char) : Option (Json α) :=
  if word = ['n', 'u', 'l', 'l'] then some null
  else if word = ['t', 'r', 'u', 'e'] then some (bool true)
  else if word = ['f', 'a', 'l', 's', 'e'] then some (bool false)
  else (numberLiteral? word).map NumberLiteral.toJson

/-! ### Tokens -/

/-- A piece of the text of a document. -/
inductive Token (α : Type) where
  /-- The start of an object. -/
  | openObject
  /-- The end of an object. -/
  | closeObject
  /-- The start of an array. -/
  | openArray
  /-- The end of an array. -/
  | closeArray
  /-- The sign between a name and its value. -/
  | colon
  /-- The sign between items or fields. -/
  | comma
  /-- A string, as a value or as the name of a field; none if it is no text. -/
  | text (value : Option String)
  /-- A number, a truth value or `null`. -/
  | simple (value : Json α)

/-- The place within a token. The characters of a word and the codes of a string are kept in
reverse. -/
inductive Place where
  /-- Between two tokens. -/
  | between
  /-- Within a number or word. -/
  | word (read : List Char)
  /-- Within a string. -/
  | string (read : List Nat)
  /-- After a backslash within a string. -/
  | escape (read : List Nat)
  /-- Within a character code, of which `count` digits are still to come. -/
  | code (read : List Nat) (count value : Nat)
  /-- At a place that makes no sense. -/
  | broken

/-- The tokens found so far, in reverse, and the place reached. -/
structure Scan (α : Type) where
  /-- The tokens, the last one first. -/
  found : List (Token α)
  /-- The place within the next token. -/
  place : Place

/-- The value of a hexadecimal digit. -/
def hexDigit? (c : Char) : Option Nat :=
  if c.isDigit then some (c.toNat - '0'.toNat)
  else if 'a' ≤ c ∧ c ≤ 'f' then some (c.toNat - 'a'.toNat + 10)
  else if 'A' ≤ c ∧ c ≤ 'F' then some (c.toNat - 'A'.toNat + 10)
  else none

/-- The character that a letter stands for after a backslash. -/
def escaped? : Char → Option Char
  | '"' => some '"'
  | '\\' => some '\\'
  | '/' => some '/'
  | 'b' => some '\x08'
  | 'f' => some '\x0c'
  | 'n' => some '\n'
  | 'r' => some '\r'
  | 't' => some '\t'
  | _ => none

/-- Whether a code is the first half of a pair. -/
def isHighHalf (code : Nat) : Bool := 0xD800 ≤ code && code < 0xDC00

/-- Whether a code is the second half of a pair. -/
def isLowHalf (code : Nat) : Bool := 0xDC00 ≤ code && code < 0xE000

/-- The code that a pair stands for. -/
def pairCode (high low : Nat) : Nat := 0x10000 + (high - 0xD800) * 0x400 + (low - 0xDC00)

/-- The characters of codes, which are given in reverse, in front of other characters. The halves of
a pair stand for one character together, and there is none for a half that stands alone. -/
def charsOfCodes (after : List Char) : List Nat → Option (List Char)
  | [] => some after
  | [code] =>
    if isHighHalf code || isLowHalf code then none else some (Char.ofNat code :: after)
  | code :: previous :: rest =>
    if isLowHalf code then
      if isHighHalf previous then charsOfCodes (Char.ofNat (pairCode previous code) :: after) rest
      else none
    else if isHighHalf code then none
    else charsOfCodes (Char.ofNat code :: after) (previous :: rest)

/-- The text of codes, which are given in reverse. -/
def textOfCodes (codes : List Nat) : Option String := String.ofList <$> charsOfCodes [] codes

/-- Whether a character may belong to a number or word. -/
def isWordChar (c : Char) : Bool := c.isAlphanum || c == '+' || c == '-' || c == '.'

/-- The scan after a character between two tokens. -/
def Scan.start (found : List (Token α)) (c : Char) : Scan α :=
  match c with
  | '{' => ⟨.openObject :: found, .between⟩
  | '}' => ⟨.closeObject :: found, .between⟩
  | '[' => ⟨.openArray :: found, .between⟩
  | ']' => ⟨.closeArray :: found, .between⟩
  | ':' => ⟨.colon :: found, .between⟩
  | ',' => ⟨.comma :: found, .between⟩
  | '"' => ⟨found, .string []⟩
  | c =>
    if c = ' ' ∨ c = '\t' ∨ c = '\n' ∨ c = '\r' then ⟨found, .between⟩
    else if isWordChar c then ⟨found, .word [c]⟩
    else ⟨found, .broken⟩

/-- The scan after one more character. -/
def Scan.step (s : Scan α) (c : Char) : Scan α :=
  match s.place with
  | .between => .start s.found c
  | .word read =>
    if isWordChar c then ⟨s.found, .word (c :: read)⟩
    else match ofWord? read.reverse with
      | some value => .start (.simple value :: s.found) c
      | none => ⟨s.found, .broken⟩
  | .string read =>
    if c = '"' then ⟨.text (textOfCodes read) :: s.found, .between⟩
    else if c = '\\' then ⟨s.found, .escape read⟩
    else if c.toNat < 0x20 then ⟨s.found, .broken⟩
    else ⟨s.found, .string (c.toNat :: read)⟩
  | .escape read =>
    if c = 'u' then ⟨s.found, .code read 4 0⟩
    else match escaped? c with
      | some e => ⟨s.found, .string (e.toNat :: read)⟩
      | none => ⟨s.found, .broken⟩
  | .code read count value =>
    match hexDigit? c with
    | none => ⟨s.found, .broken⟩
    | some d =>
      let value := 16 * value + d
      if count ≤ 1 then ⟨s.found, .string (value :: read)⟩
      else ⟨s.found, .code read (count - 1) value⟩
  | .broken => s

/-- The scan of a whole text. A white-space character after the text ends its last word. -/
def scan (text : String) : Scan α := (text.toList ++ [' ']).foldl Scan.step ⟨[], .between⟩

/-- The tokens of a text, and whether all of it makes sense. -/
def tokens (text : String) : List (Token α) × Bool :=
  let s := scan text
  (s.found.reverse, match s.place with | .between => true | _ => false)

end Json

end QuboReduction

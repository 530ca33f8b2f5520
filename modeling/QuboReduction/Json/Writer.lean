import QuboReduction.Json
import QuboReduction.NumberText

/-!
# Writing JSON

A value is written either without any space or with one item or field on each line, indented by two
spaces for each array or object around it.

## Main definitions

* `QuboReduction.Json.quote` — a string in quotes.
* `QuboReduction.Json.compact` — the text without spaces.
* `QuboReduction.Json.pretty` — the text over several lines.
-/

namespace QuboReduction

namespace Json

/-! ### Strings -/

/-- The hexadecimal digit of a number below sixteen. -/
def hexDigit (n : Nat) : Char := if n < 10 then Char.ofNat (48 + n) else Char.ofNat (87 + n)

/-- A character within quotes: quotes, backslashes and control characters are escaped. -/
def quoteChar (c : Char) : List Char :=
  match c with
  | '"' => ['\\', '"']
  | '\\' => ['\\', '\\']
  | '\x08' => ['\\', 'b']
  | '\x0c' => ['\\', 'f']
  | '\n' => ['\\', 'n']
  | '\r' => ['\\', 'r']
  | '\t' => ['\\', 't']
  | c =>
    if c.toNat < 0x20 then
      ['\\', 'u', '0', '0', hexDigit (c.toNat / 16), hexDigit (c.toNat % 16)]
    else [c]

/-- A string in quotes. -/
def quote (s : String) : String := String.ofList ('"' :: s.toList.flatMap quoteChar ++ ['"'])

variable {α : Type} [NumberText α]

/-! ### Compact text -/

mutual

/-- The text of a value without spaces. -/
def compact : Json α → String
  | null => "null"
  | unreadable => "null"
  | bool true => "true"
  | bool false => "false"
  | int value => toString value
  | real value => NumberText.document value
  | str value => quote value
  | arr items => "[" ++ ",".intercalate (compactItems items) ++ "]"
  | obj fields => "\x7b" ++ ",".intercalate (compactFields fields) ++ "\x7d"

/-- The texts of the items of an array. -/
def compactItems : List (Json α) → List String
  | [] => []
  | item :: rest => compact item :: compactItems rest

/-- The texts of the fields of an object. -/
def compactFields : List (String × Json α) → List String
  | [] => []
  | (name, value) :: rest => (quote name ++ ":" ++ compact value) :: compactFields rest

end

/-! ### Text over several lines -/

/-- A new line with an indentation. -/
def newline (depth : Nat) : String := "\n" ++ String.ofList (List.replicate (2 * depth) ' ')

/-- Pieces between two brackets, each on a line of its own. -/
def block (opening closing : String) (depth : Nat) (pieces : List String) : String :=
  if pieces.isEmpty then opening ++ closing
  else
    opening ++ newline (depth + 1) ++ ("," ++ newline (depth + 1)).intercalate pieces ++
      newline depth ++ closing

mutual

/-- The text of a value within `depth` arrays and objects. -/
def prettyAt (depth : Nat) : Json α → String
  | null => "null"
  | unreadable => "null"
  | bool true => "true"
  | bool false => "false"
  | int value => toString value
  | real value => NumberText.document value
  | str value => quote value
  | arr items => block "[" "]" depth (prettyItems (depth + 1) items)
  | obj fields => block "\x7b" "\x7d" depth (prettyFields (depth + 1) fields)

/-- The texts of the items of an array. -/
def prettyItems (depth : Nat) : List (Json α) → List String
  | [] => []
  | item :: rest => prettyAt depth item :: prettyItems depth rest

/-- The texts of the fields of an object. -/
def prettyFields (depth : Nat) : List (String × Json α) → List String
  | [] => []
  | (name, value) :: rest =>
    (quote name ++ ": " ++ prettyAt depth value) :: prettyFields depth rest

end

/-- The text of a value over several lines. -/
def pretty (value : Json α) : String := prettyAt 0 value

end Json

end QuboReduction

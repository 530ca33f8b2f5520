import QuboReduction.Command

/-!
# Arguments

Arguments are options, which start with a minus sign, and operands. A long option has two minus
signs and its value after an equality sign or in the next argument; short options may share one
minus sign, and the last of them may have its value attached. After the argument `--` there are
operands only. The value of an option is not taken from an argument that looks like an option,
unless the option allows that, and no option may be given twice.

## Main definitions

* `QuboReduction.Arguments.Switch` — the options of a command.
* `QuboReduction.Arguments.split?` — options and operands.
* `QuboReduction.Command.ofArguments?` — the command that arguments ask for.
-/

namespace QuboReduction

namespace Arguments

/-- An option that a command has. -/
structure Switch where
  /-- The name after two minus signs. -/
  long : String
  /-- The name after one minus sign, if there is one. -/
  short : Option Char
  /-- Whether a value belongs to the option. -/
  takesValue : Bool
  /-- Whether the value may look like an option. -/
  allowsHyphen : Bool

/-- A piece of the arguments. -/
inductive Item where
  /-- An option, with the value that belongs to it. -/
  | switch (long : String) (value : Option String)
  /-- An operand. -/
  | operand (text : String)

/-- Whether an argument looks like an option: it has a minus sign and something after it. -/
def looksLikeSwitch (arg : String) : Bool :=
  match arg.toList with
  | '-' :: _ :: _ => true
  | _ => false

/-- What one argument amounts to. -/
inductive Step where
  /-- Complete items. -/
  | items (found : List Item)
  /-- Complete items, and an option whose value is in the next argument. -/
  | pending (found : List Item) (next : Switch)

/-- The part of a text before an equality sign, and the part after it if there is one. -/
def splitEquality (text : List Char) : List Char × Option (List Char) :=
  match text.dropWhile (fun c => c != '=') with
  | [] => (text, none)
  | _ :: value => (text.takeWhile (fun c => c != '='), some value)

/-- What a long option without its minus signs amounts to. -/
def longStep? (switches : List Switch) (text : List Char) : Option Step := do
  let (name, value) := splitEquality text
  let s ← switches.find? fun s => s.long.toList == name
  match s.takesValue, value with
  | true, some v => pure (.items [.switch s.long (some (String.ofList v))])
  | true, none => pure (.pending [] s)
  | false, none => pure (.items [.switch s.long none])
  | false, some _ => none

/-- What short options without their minus sign amount to. -/
def shortStep? (switches : List Switch) (found : List Item) : List Char → Option Step
  | [] => some (.items found)
  | c :: rest => do
    let s ← switches.find? fun s => s.short == some c
    if s.takesValue then
      match rest with
      | [] => pure (.pending found s)
      | '=' :: value => pure (.items (found ++ [.switch s.long (some (String.ofList value))]))
      | value => pure (.items (found ++ [.switch s.long (some (String.ofList value))]))
    else shortStep? switches (found ++ [.switch s.long none]) rest

/-- What one argument amounts to. -/
def step? (switches : List Switch) (arg : String) : Option Step :=
  match arg.toList with
  | '-' :: '-' :: rest => longStep? switches rest
  | '-' :: c :: rest => shortStep? switches [] (c :: rest)
  | _ => some (.items [.operand arg])

/-- The items of arguments. -/
def split? (switches : List Switch) : List String → Option (List Item)
  | [] => some []
  | arg :: rest =>
    if arg = "--" then some (rest.map .operand)
    else
      match step? switches arg, rest with
      | some (.items found), rest => (found ++ ·) <$> split? switches rest
      | some (.pending found s), value :: rest =>
        if looksLikeSwitch value && !s.allowsHyphen then none
        else (fun items => found ++ .switch s.long (some value) :: items) <$> split? switches rest
      | _, _ => none

/-- The operands among items. -/
def operands (items : List Item) : List String :=
  items.filterMap fun
    | .operand text => some text
    | .switch _ _ => none

/-- The values given for an option, one for each time that it is given. -/
def values (items : List Item) (long : String) : List (Option String) :=
  items.filterMap fun
    | .operand _ => none
    | .switch name value => if name = long then some value else none

/-- The value of an option in a form; none inside if the option is not given, and nothing at all if
it is given twice or its value has not the form. -/
def value? {β : Type} (items : List Item) (long : String) (form : String → Option β) :
    Option (Option β) :=
  match values items long with
  | [] => some none
  | [some text] => some <$> form text
  | _ => none

/-- The name of a file, which is not empty. -/
def path? (text : String) : Option String := if text.isEmpty then none else some text

end Arguments

open Arguments

namespace Command

/-- The option of all commands that asks for more messages on the way. -/
def verboseSwitch : Switch := ⟨"verbose", some 'v', false, false⟩

/-- The options of a command beside that for more messages. -/
def ownSwitches (name : String) : List Switch :=
  if name = "convert" then
    [⟨"penalty", some 'p', true, false⟩, ⟨"format", some 'f', true, false⟩,
      ⟨"output", some 'o', true, false⟩]
  else if name = "interpret" then [⟨"objective", none, true, true⟩]
  else []

/-- Whether the option for more messages is given at most once. -/
def verboseOnce (items : List Item) : Bool := (values items verboseSwitch.long).length ≤ 1

/-- The command of a name with items. -/
def ofItems? (name : String) (items : List Item) : Option Command := do
  let args := operands items
  if name = "show" then
    match args with
    | [f] => display <$> path? f
    | _ => none
  else if name = "check" then
    match args with
    | [f] => check <$> path? f
    | _ => none
  else if name = "convert" then
    let factor ← value? items "penalty" Argument.toFloat?
    let format ← value? items "format" some
    let target ← value? items "output" path?
    match args with
    | [f] => (fun f => convert f factor (format.getD "pretty") target) <$> path? f
    | _ => none
  else if name = "interpret" then
    let objective ← value? items "objective" Argument.toFloat?
    match args with
    | f :: v :: rest =>
      let numbers ← (v :: rest).mapM Argument.toFloat?
      (fun f => interpret f numbers objective) <$> path? f
    | _ => none
  else none

/-- The command that arguments ask for, if they make sense. Only the option for more messages may
stand before the name of the command. -/
def ofArgumentsAfter? (before : List Item) : List String → Option Command
  | [] => none
  | arg :: rest =>
    if looksLikeSwitch arg then
      match step? [verboseSwitch] arg with
      | some (.items found) => ofArgumentsAfter? (before ++ found) rest
      | _ => none
    else do
      let items ← split? (verboseSwitch :: ownSwitches arg) rest
      guard (verboseOnce before && verboseOnce items)
      ofItems? arg items

/-- The command that arguments ask for, if they make sense. -/
def ofArguments? (args : List String) : Option Command := ofArgumentsAfter? [] args

end Command

end QuboReduction

import QuboReduction.Command.FileError
import QuboReduction.Decimal.Argument
import QuboReduction.Decimal.Shortest
import QuboReduction.Document.Conversion
import QuboReduction.Json.Writer
import QuboReduction.PenaltyFactor
import QuboReduction.Report
import QuboReduction.Shape

/-!
# Commands

The commands show a problem, check it, convert it into a problem without constraints over binary
variables, and take a solution of the converted problem back to the variables it came from. Every
command reads one file; what it does with the text of that file is a function of the text.

## Main definitions

* `QuboReduction.Command` — the commands.
* `QuboReduction.Command.action` — what a command does with the text of its file.
-/

namespace QuboReduction

/-- The text of an error of a document. -/
def DocumentError.message : DocumentError → String
  | malformed => "<parse error>"
  | invalid cause => cause.message

/-- A command with its arguments. -/
inductive Command where
  /-- Write out a problem. -/
  | display (file : String)
  /-- Check a problem. -/
  | check (file : String)
  /-- Convert a problem, with a penalty factor, a format of the output and a file to save to. -/
  | convert (file : String) (factor : Option Float) (format : String) (target : Option String)
  /-- Take the values of the variables of a converted problem, and a value of its objective, back
  to the problem that was converted. -/
  | interpret (file : String) (values : List Float) (objective : Option Float)

/-- What a command prints, and the exit code it ends with. -/
structure Output where
  /-- The exit code. -/
  exitCode : Nat
  /-- The text on the standard output. -/
  stdout : String
  /-- The lines on the standard error output. -/
  stderr : List String

namespace Output

/-- A command that succeeds. -/
def success (text : String) : Output := ⟨0, text, []⟩

/-- A command that fails. -/
def failure (lines : List String) : Output := ⟨1, "", lines⟩

end Output

/-- What a command does once its file is read. -/
inductive Action where
  /-- It prints something. -/
  | print (output : Output)
  /-- It saves a text to a file, and what it prints depends on whether that succeeds. -/
  | save (path text : String) (saved : Output) (failed : FileError → Output)

namespace Command

/-- The file that a command reads. -/
def file : Command → String
  | display file => file
  | check file => file
  | convert file _ _ _ => file
  | interpret file _ _ => file

/-- The document in a file, or the reason why there is none. -/
def load {β : Type} (file : String) (read : String → Except DocumentError β)
    (source : Except FileError String) : Except String β :=
  match source with
  | .error e => .error ("Error reading file: " ++ e.message)
  | .ok text =>
    match read text with
    | .error e => .error ("Error parsing " ++ file ++ ": " ++ e.message)
    | .ok b => .ok b

/-- The name of a shape. -/
def shapeName : Shape → String
  | .implicationLe _ _ => "implication"
  | .implicationGe _ _ => "implication"
  | .atMostOne _ => "at most one"
  | .atMostOneZero _ => "at least n - 1"
  | .generic => "generic"

/-- The findings about a problem. -/
def summary (file : String) (p : Problem Float) : String :=
  let binary := (p.vars.filter Variable.isBinary).length
  let header := ["✓ " ++ file ++ " is valid", "  " ++ toString binary ++ " binary variables",
    "  " ++ toString (p.size - binary) ++ " integer variables",
    "  " ++ toString p.constraints.length ++ " constraints"]
  let shapes := p.constraints.map fun c =>
    "    " ++ padRight 20 c.name ++ " " ++ shapeName (p.shapeOf c)
  let factor := "  estimated penalty: " ++ NumberText.plain p.estimatedFactor
  let note := if p.isQubo then ["  already in QUBO form"] else []
  unlines (header ++ shapes ++ factor :: note)

/-- The line of one stage. -/
def stageLine (r : Record Float) : String :=
  "  " ++ padRight 30 r.stage.label ++ " " ++ padLeft 4 (toString r.sourceSize) ++ " -> " ++
    padLeft 4 (toString r.targetSize) ++ " variables"

/-- The text of a conversion in a format. -/
def conversionText (format : String) (c : Conversion Float) : String :=
  if format = "json" then c.problem.toJson.pretty ++ "\n"
  else unlines ("Stages:" :: c.records.map stageLine ++ [""]) ++ c.problem.report

/-- What the command to convert does with a problem. -/
def convertAction (factor : Option Float) (format : String) (target : Option String)
    (p : Problem Float) : Action :=
  match QuboReduction.convert p (quboStages factor) with
  | .error e => .print (.failure ["Conversion error: " ++ e.message])
  | .ok c =>
    let output := Output.success (conversionText format c)
    match target with
    | none => .print output
    | some path =>
      .save path c.toJson.pretty output fun e =>
        .failure ["Error writing " ++ path ++ ": " ++ e.message]

/-- The lines of the values of variables; `index` is that of the first one. -/
def valueLines (index : Nat) : List Float → List String
  | [] => []
  | x :: rest =>
    ("  [" ++ toString index ++ "] " ++ NumberText.plain x) :: valueLines (index + 1) rest

/-- What the command to interpret prints about a conversion. -/
def interpretOutput (values : List Float) (objective : Option Float) (c : Conversion Float) :
    Output :=
  match c.interpret values with
  | .error e => .failure ["Interpretation error: " ++ e.message]
  | .ok source =>
    let note := match objective with
      | none => []
      | some x => ["", "Objective: " ++ NumberText.plain (c.interpretObjective x)]
    .success (unlines ("Values:" :: valueLines 0 source ++ note))

/-- What a command does with a problem, or with the reason why there is none. -/
def onProblem (file : String) (source : Except FileError String)
    (run : Problem Float → Action) : Action :=
  match load file Problem.ofText source with
  | .error reason => .print (.failure ["✗ " ++ file ++ " has errors:", "  " ++ reason])
  | .ok p => run p

/-- What a command does with the text of its file, or with the reason why it cannot be read. -/
def action (c : Command) (source : Except FileError String) : Action :=
  match c with
  | display file => onProblem file source fun p => .print (.success p.report)
  | check file => onProblem file source fun p => .print (.success (summary file p))
  | convert file factor format target =>
    onProblem file source (convertAction factor format target)
  | interpret file values objective =>
    match load file Conversion.ofText source with
    | .error reason => .print (.failure [reason])
    | .ok conversion => .print (interpretOutput values objective conversion)

end Command

end QuboReduction

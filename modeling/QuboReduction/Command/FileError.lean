/-!
# Errors of files

Why a file cannot be read or written, with the number that the system has for it.

## Main definitions

* `QuboReduction.FileError` — the causes.
* `QuboReduction.FileError.ofCode?` — the cause with a number.
* `QuboReduction.FileError.message` — the text of a cause.
-/

namespace QuboReduction

/-- Why a file cannot be read or written. -/
inductive FileError where
  /-- There is no file of this name. -/
  | missing
  /-- The file may not be used. -/
  | denied
  /-- A step of the path is a file and not a directory. -/
  | notDirectory
  /-- The path leads to a directory. -/
  | directory
  /-- A name is longer than names may be. -/
  | nameTooLong
  /-- The content is not a text. -/
  | notText
  /-- Any other cause, in the words of the system. -/
  | other (reason : String)
deriving DecidableEq

namespace FileError

/-- The causes that have a number, with the number and the text of each. -/
def numbered : List (FileError × Nat × String) :=
  [(missing, 2, "No such file or directory"), (denied, 13, "Permission denied"),
    (notDirectory, 20, "Not a directory"), (directory, 21, "Is a directory"),
    (nameTooLong, 36, "File name too long")]

/-- The cause with a number. -/
def ofCode? (code : Nat) : Option FileError :=
  (numbered.find? fun e => e.2.1 == code).map fun e => e.1

/-- The text of a cause. -/
def message (e : FileError) : String :=
  match numbered.lookup e, e with
  | some (code, text), _ => text ++ " (os error " ++ toString code ++ ")"
  | none, other reason => reason
  | none, _ => "stream did not contain valid UTF-8"

end FileError

end QuboReduction

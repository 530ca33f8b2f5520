/-!
# Texts of numbers

How numbers are written is a parameter of the texts they stand in: reports and error messages only
ask for a text of each number.
-/

namespace QuboReduction

/-- A type of numbers with a written form. -/
class NumberText (α : Type) where
  /-- The text of a number in reports and messages. -/
  plain : α → String
  /-- The text of a number in documents, where only finite numbers have one. -/
  document : α → String

end QuboReduction

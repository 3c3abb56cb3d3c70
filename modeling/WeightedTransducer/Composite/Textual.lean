import WeightedTransducer.Composite.Output
import WeightedTransducer.Diagnostic.Traced

/-!
# Values with a text

`Textual α` says how a value of `α` is written as one element of a composite value, and how a
complete text of one is read.  A simple value ignores the delimiters; a composite value hands them
on to its own elements.
-/

namespace WeightedTransducer

/-- The text of the values of a type. -/
class Textual (α : Type) where
  /-- Writes a value. -/
  write : Delimiters → α → Output
  /-- Reads the complete text of a value. -/
  read : Delimiters → List Char → Traced (Except ReadError α)

/-- The whole text of a value. -/
def Textual.text {α : Type} [Textual α] (delimiters : Delimiters) (value : α) : List Char :=
  (Textual.write delimiters value).toText

end WeightedTransducer

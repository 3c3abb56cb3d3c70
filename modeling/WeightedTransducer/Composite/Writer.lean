import WeightedTransducer.Composite.Textual

/-!
# Writing a composite value

A `CompositeWriter` writes the opening parenthesis, the elements with separators between, and the
closing parenthesis, one step at a time.  `CompositeWriter.write` runs all the steps of one value
and stops at the first that does not find room.
-/

namespace WeightedTransducer

/-- The state of writing one composite value. -/
structure CompositeWriter where
  /-- The delimiters in use. -/
  delimiters : Delimiters
  /-- How many elements have been begun. -/
  position : Nat := 0
  /-- What has been written. -/
  sink : Sink := {}

namespace CompositeWriter

/-- A step of writing: the writer afterwards, and whether all of the step was kept. -/
abbrev Step := CompositeWriter → CompositeWriter × Bool

/-- Writes an output into the sink. -/
def put (output : Output) : Step := fun writer =>
  let (sink, kept) := output writer.sink
  ({ writer with sink }, kept)

/-- Writes the opening parenthesis, if there are parentheses. -/
def opening : Step := fun writer =>
  put (Output.text writer.delimiters.opening.toList) writer

/-- Writes the separator, except before the first element. -/
def separator : Step := fun writer =>
  put (Output.text (if writer.position = 0 then [] else [writer.delimiters.separator])) writer

/-- Writes the separator and an element; the element counts as begun once the separator is
kept. -/
def element {α : Type} [Textual α] (value : α) : Step := fun writer =>
  match separator writer with
  | (writer, true) =>
    put (Textual.write writer.delimiters value) { writer with position := writer.position + 1 }
  | (writer, false) => (writer, false)

/-- Writes the closing parenthesis, if there are parentheses. -/
def closing : Step := fun writer =>
  put (Output.text writer.delimiters.closing.toList) writer

/-- Runs steps up to the first that is not kept. -/
def run : List Step → Step
  | [], writer => (writer, true)
  | step :: rest, writer =>
    match step writer with
    | (writer, true) => run rest writer
    | (writer, false) => (writer, false)

/-- Writes the composite value whose elements the given steps write. -/
def write (delimiters : Delimiters) (elements : List Step) : Output := fun sink =>
  let (writer, kept) := run (opening :: elements ++ [closing]) { delimiters, sink }
  (writer.sink, kept)

end CompositeWriter
end WeightedTransducer

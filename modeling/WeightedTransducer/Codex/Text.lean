import WeightedTransducer.Codex.Basic
import WeightedTransducer.Composite.Leaf
import WeightedTransducer.Composite.Reader
import WeightedTransducer.Composite.Writer

/-!
# The text of a codex

The first line has the codex mark, the name of the weight type, the number of the flags and the
number of entries.  Each further line has a label and the composite text of the entry under it, the
labels counting up from one.  `Codex.text` writes this text and `Codex.read` reads it from bytes;
blank lines between entries, and white space around them, do not count.
-/

namespace WeightedTransducer

namespace Entry
variable {W : Type} [Textual W]

/-- Takes an entry. -/
def reading : Reading (Entry W) := do
  Reading.opening
  let (input, _) ← Reading.element false
  let (output, _) ← Reading.element false
  let (weight, _) ← Reading.element true
  Reading.closing
  pure ⟨input, output, weight⟩

instance : Textual (Entry W) where
  write delimiters e :=
    CompositeWriter.write delimiters
      [CompositeWriter.element e.input, CompositeWriter.element e.output,
        CompositeWriter.element e.weight]
  read delimiters text := Reading.runOn delimiters text reading

end Entry

namespace Codex
variable {W : Type} [Weight W]

/-- The first word of every codex. -/
def mark : String := "wfst-codex"

/-! ## Writing -/

/-- The first line. -/
def headerText (codex : Codex W) : List Char :=
  (mark ++ " " ++ Weight.typeName W ++ " " ++ toString codex.flags.number ++ " "
    ++ toString codex.entries.length ++ "\n").toList

/-- The lines of entries, the first of which has the given label. -/
def entryTexts (delimiters : Delimiters) : (label : Nat) → List (Entry W) → List Char
  | _, [] => []
  | label, entry :: rest =>
    Nat.toDigits 10 label ++ ' ' :: Textual.text delimiters entry ++ '\n'
      :: entryTexts delimiters (label + 1) rest

/-- The text of a codex. -/
def text (delimiters : Delimiters) (codex : Codex W) : List Char :=
  codex.headerText ++ entryTexts delimiters 1 codex.entries

/-- The bytes of a codex. -/
def bytes (delimiters : Delimiters) (codex : Codex W) : Bytes :=
  Utf8.encode (codex.text delimiters)

/-! ## Reading -/

/-- The lines of some bytes; the last one need not end in a line feed. -/
def lines (input : Bytes) : List Bytes :=
  let all := pieces (· == 10) input
  if all.getLast? = some [] then all.dropLast else all

/-- The flags and the number of entries that the first line declares. -/
def readHeader (W : Type) [Weight W] (line : List Char) : Except CodexError (Flags × Nat) :=
  match (Text.words line).map String.ofList with
  | [first, typeName, flagsText, countText] =>
    if first ≠ mark then .error (.malformed 1 (.badMark first))
    else if typeName ≠ Weight.typeName W then
      .error (.typeMismatch (Weight.typeName W) typeName)
    else match (Text.natural? 255 flagsText.toList).bind Flags.ofNumber? with
      | none => .error (.malformed 1 (.badFlags flagsText))
      | some flags =>
        match Text.natural? (2 ^ 64 - 1) countText.toList with
        | none => .error (.malformed 1 (.badCount countText))
        | some count => .ok (flags, count)
  | _ => .error (.malformed 1 .headerShape)

/-- Reads the line of an entry into a codex; a blank line changes nothing. -/
def readEntry (delimiters : Delimiters) (number : Nat) (line : List Char) (codex : Codex W) :
    Traced (Except CodexError (Codex W)) :=
  let line := Text.trim line
  if line.isEmpty then pure (.ok codex)
  else match Text.splitAtBlank? line with
    | none => pure (.error (.malformed number .entryShape))
    | some (label, entryText) =>
      let expected := codex.entries.length + 1
      if Text.natural? (2 ^ 64 - 1) label ≠ some expected then
        pure (.error (.malformed number (.wrongLabel expected (String.ofList label))))
      else do
        match ← Textual.read delimiters (Text.trimStart entryText) with
        | .error e => pure (.error (.entry e))
        | .ok entry =>
          if (codex.find? entry).isSome then pure (.error (.malformed number .duplicate))
          else pure (.ok (codex.push entry))

/-- Reads the lines of entries into a codex; `number` is the number of the first of the lines. -/
def readEntries (delimiters : Delimiters) :
    (number : Nat) → List Bytes → Codex W → Traced (Except CodexError (Codex W))
  | _, [], codex => pure (.ok codex)
  | number, line :: rest, codex =>
    match Utf8.decode? line with
    | none => pure (.error (.storage .notText))
    | some line => do
      match ← readEntry delimiters number line codex with
      | .error e => pure (.error e)
      | .ok codex => readEntries delimiters (number + 1) rest codex

/-- Reads a codex. -/
def read (delimiters : Delimiters) (input : Bytes) : Traced (Except CodexError (Codex W)) :=
  match lines input with
  | [] => pure (.error (.malformed 1 .missingHeader))
  | header :: rest =>
    match Utf8.decode? header with
    | none => pure (.error (.storage .notText))
    | some header =>
      match readHeader W header with
      | .error e => pure (.error e)
      | .ok (flags, count) => do
        match ← readEntries delimiters 2 rest (empty flags) with
        | .error e => pure (.error e)
        | .ok codex =>
          if codex.entries.length ≠ count then
            pure (.error (.malformed 1 (.wrongCount count codex.entries.length)))
          else
            Traced.report (.codexRead (Weight.typeName W) count)
            pure (.ok codex)

end Codex
end WeightedTransducer

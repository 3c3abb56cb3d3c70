import WeightedTransducer.Composite.Textual
import WeightedTransducer.Text.Integer

/-!
# Simple elements

Texts and whole numbers as elements of composite values.  A text is written as it is, so it must
not be empty or hold delimiters or white space if it is to be read back.
-/

namespace WeightedTransducer

instance : Textual String where
  write _ value := Output.text value.toList
  read _ text := pure (.ok (String.ofList text))

/-- The texts of a type of whole numbers with a lower and an upper bound; `name` is what the
type is called when a text is refused. -/
abbrev Textual.wholeNumber {α : Type} (name : String) (least greatest : Int) (toInt : α → Int)
    (ofInt : Int → α) : Textual α where
  write _ value := Output.text (Text.writeInteger (toInt value))
  read _ text :=
    match Text.integer? least greatest text with
    | some value => pure (.ok (ofInt value))
    | none => pure (.error (.element (String.ofList text) name))

instance : Textual UInt16 :=
  .wholeNumber "u16" 0 (2 ^ 16 - 1) (fun value => value.toNat) (fun z => UInt16.ofNat z.toNat)

instance : Textual UInt32 :=
  .wholeNumber "u32" 0 (2 ^ 32 - 1) (fun value => value.toNat) (fun z => UInt32.ofNat z.toNat)

instance : Textual UInt64 :=
  .wholeNumber "u64" 0 (2 ^ 64 - 1) (fun value => value.toNat) (fun z => UInt64.ofNat z.toNat)

instance : Textual Int16 :=
  .wholeNumber "i16" (-2 ^ 15) (2 ^ 15 - 1) Int16.toInt Int16.ofInt

instance : Textual Int32 :=
  .wholeNumber "i32" (-2 ^ 31) (2 ^ 31 - 1) Int32.toInt Int32.ofInt

instance : Textual Int64 :=
  .wholeNumber "i64" (-2 ^ 63) (2 ^ 63 - 1) Int64.toInt Int64.ofInt

/-- A number of things held in memory. -/
structure Count where
  /-- The number. -/
  value : UInt64
  deriving DecidableEq, Repr

instance : Textual Count :=
  .wholeNumber "usize" 0 (2 ^ 64 - 1) (fun count => count.value.toNat)
    (fun z => ⟨UInt64.ofNat z.toNat⟩)

end WeightedTransducer

import WeightedTransducer.Codex.Text
import WeightedTransducer.Composite.Sequence
import WeightedTransducer.Weight.Kind

/-!
# The element types by name

An `ElementKind` describes a type whose values can be elements of a composite value: whole numbers,
texts, weights, lists of elements, and codex entries.  `ElementKind.Carrier` is that type.
-/

namespace WeightedTransducer

/-- A description of a type of elements. -/
inductive ElementKind where
  /-- Natural numbers of 16 bits. -/
  | natural16
  /-- Natural numbers of 32 bits. -/
  | natural32
  /-- Natural numbers of 64 bits. -/
  | natural64
  /-- Numbers of things held in memory. -/
  | count
  /-- Integers of 16 bits. -/
  | integer16
  /-- Integers of 32 bits. -/
  | integer32
  /-- Integers of 64 bits. -/
  | integer64
  /-- Texts. -/
  | text
  /-- Weights. -/
  | weight (kind : WeightKind)
  /-- Lists. -/
  | list (kind : ElementKind)
  /-- Codex entries. -/
  | entry (kind : WeightKind)
  deriving DecidableEq

namespace ElementKind

/-- The values of the type described. -/
def Carrier : ElementKind → Type
  | natural16 => UInt16
  | natural32 => UInt32
  | natural64 => UInt64
  | count => Count
  | integer16 => Int16
  | integer32 => Int32
  | integer64 => Int64
  | text => String
  | weight kind => kind.Carrier
  | list kind => List kind.Carrier
  | entry kind => Entry kind.Carrier

instance instTextual [Elementary] : (k : ElementKind) → Textual k.Carrier
  | natural16 => inferInstanceAs (Textual UInt16)
  | natural32 => inferInstanceAs (Textual UInt32)
  | natural64 => inferInstanceAs (Textual UInt64)
  | count => inferInstanceAs (Textual Count)
  | integer16 => inferInstanceAs (Textual Int16)
  | integer32 => inferInstanceAs (Textual Int32)
  | integer64 => inferInstanceAs (Textual Int64)
  | text => inferInstanceAs (Textual String)
  | weight kind => inferInstanceAs (Textual kind.Carrier)
  | list kind =>
    letI := instTextual kind
    inferInstanceAs (Textual (List kind.Carrier))
  | entry kind => inferInstanceAs (Textual (Entry kind.Carrier))

end ElementKind
end WeightedTransducer

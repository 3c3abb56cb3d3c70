import WeightedTransducer.Proofs.Weight.KindText

/-!
# Writing where there is little room

A sink that keeps some characters and fails at the next one may fail in the middle of any leaf, at
any separator and at any parenthesis, however deep they are nested.  Every writer around that place
stops there and hands the failure on.  The full text of a value is known without any writer
(`ElementKind.fullText`); what the sink keeps is always a front of it, as long as there is room for,
and a value is written successfully exactly if that is all of it (`Sink.KeepsFront`).  This needs
nothing of the delimiters; values that cannot be read back are written in the same way.
-/

namespace WeightedTransducer

/-! ## Full texts -/

/-- The full text of a weight: that of its leaves, with pairs composed. -/
def WeightKind.fullText (d : Delimiters) : (k : WeightKind) → k.Carrier → List Char
  | tropical, (w : Tropical) => Cost.write w.value
  | log, (w : Log) => Cost.write w.value
  | boolean, (w : Boolean) => w.text.toList
  | finite table, (w : FiniteWeight table) => (table.texts.getD w.index "").toList
  | product first second, (w : Product first.Carrier second.Carrier) =>
    d.compose [first.fullText d w.first, second.fullText d w.second]

/-- The full text of an element: that of its leaves, with lists, pairs and entries composed. -/
def ElementKind.fullText (d : Delimiters) : (k : ElementKind) → k.Carrier → List Char
  | natural16, (n : UInt16) => Text.writeInteger n.toNat
  | natural32, (n : UInt32) => Text.writeInteger n.toNat
  | natural64, (n : UInt64) => Text.writeInteger n.toNat
  | count, (n : Count) => Text.writeInteger n.value.toNat
  | integer16, (n : Int16) => Text.writeInteger n.toInt
  | integer32, (n : Int32) => Text.writeInteger n.toInt
  | integer64, (n : Int64) => Text.writeInteger n.toInt
  | text, (s : String) => s.toList
  | weight kind, w => kind.fullText d w
  | list kind, (values : List kind.Carrier) => d.compose (values.map (kind.fullText d))
  | entry kind, (e : Entry kind.Carrier) =>
    d.compose [Text.writeInteger e.input.toNat, Text.writeInteger e.output.toNat,
      kind.fullText d e.weight]

/-- A weight is written by putting its full text. -/
theorem WeightKind.write_eq [Elementary] (d : Delimiters) (k : WeightKind) :
    ∀ w : k.Carrier, Textual.write d w = Output.text (k.fullText d w) := by
  induction k with
  | tropical | log | boolean | finite => exact fun _ => rfl
  | product first second ihf ihs =>
    intro w
    refine (write_product d w).trans ?_
    rw [Textual.text, Textual.text, ihf, ihs]
    rfl

/-- **An element is written by putting its full text**, however deep it is nested. -/
theorem ElementKind.write_eq [Elementary] (k : ElementKind) :
    ∀ (d : Delimiters) (v : k.Carrier), Textual.write d v = Output.text (k.fullText d v) := by
  induction k with
  | weight kind => exact fun d v => kind.write_eq d v
  | list kind ih =>
    intro d values
    have : LawfulTextual kind.Carrier := .of_write (fun d v => kind.fullText d v) ih
    have htexts : Textual.text d = kind.fullText d := by
      funext v
      rw [Textual.text, ih, Output.toText_text]
    refine (write_list d values).trans ?_
    rw [htexts]
    rfl
  | entry kind =>
    intro d e
    refine (write_entry d e).trans ?_
    rw [Textual.text, Textual.text, Textual.text, kind.write_eq]
    rfl
  | _ => exact fun _ _ => rfl

/-! ## Sinks -/

/-- An output that puts a text: a sink without a limit gets all of it, and a sink with room for some
characters the first of them, behind what the sink held before; it succeeds if that is all. -/
def Sink.KeepsFront (output : Output) (text : List Char) : Prop :=
  (∀ kept : List Char, output { text := kept } = ({ text := kept ++ text }, true)) ∧
  ∀ (kept : List Char) (room : Nat),
    output { text := kept, room := some room } =
      ({ text := kept ++ text.take room, room := some (room - text.length) },
        decide (text.length ≤ room))

/-- **A sink of limited room keeps the front of what is written into it**, whatever the delimiters
are, and of whatever type the value is. -/
theorem Sink.keepsFront_of_nested [Elementary] (k : ElementKind) (d : Delimiters) (v : k.Carrier) :
    KeepsFront (Textual.write d v) (k.fullText d v) := by
  rw [k.write_eq]
  exact ⟨fun _ => rfl, fun _ _ => rfl⟩

/-- The room may end at a separator inside an inner list. -/
example : Textual.write ⟨',', some ('(', ')')⟩ [["a"], ["b", "c"]] { room := some 7 } =
    ({ text := "((a),(b".toList, room := some 0 }, false) := by
  decide +kernel

end WeightedTransducer

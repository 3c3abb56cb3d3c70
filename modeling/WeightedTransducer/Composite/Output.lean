/-!
# Output into a sink of bounded room

A `Sink` keeps the characters written to it, as many as there is room for.  An `Output` is
something to write: it gives the sink afterwards and whether everything found room.  What a sink
keeps is always a front of the full text.
-/

namespace WeightedTransducer

/-- Where text is written. -/
structure Sink where
  /-- The characters kept so far. -/
  text : List Char := []
  /-- How many more are kept; no number means all. -/
  room : Option Nat := none
  deriving DecidableEq, Repr

/-- Keeps as much of a text as there is room for; the answer says whether that was all of it. -/
def Sink.put (sink : Sink) (text : List Char) : Sink × Bool :=
  match sink.room with
  | none => ({ sink with text := sink.text ++ text }, true)
  | some room =>
    ({ text := sink.text ++ text.take room, room := some (room - text.length) },
      text.length ≤ room)

/-- Something to write: the sink afterwards, and whether all of it was kept. -/
abbrev Output := Sink → Sink × Bool

namespace Output

/-- Writes a text. -/
def text (text : List Char) : Output := fun sink => sink.put text

/-- The whole text of an output. -/
def toText (output : Output) : List Char :=
  (output {}).1.text

end Output
end WeightedTransducer

import WeightedTransducer.Codex.Basic

/-!
# Encoding and decoding a machine

Encoding replaces the labels and weights of a machine's arcs by labels of a codex.  Where weights
are encoded, final weights are too: every final state gets an arc that reads nothing to a new state
at the end, the *superfinal* state, and is no longer final itself.  Decoding undoes both; it first
decodes every arc and only then changes the machine, so a machine that does not decode stays as it
was.
-/

namespace WeightedTransducer

/-! ## Encoding -/

namespace Codex
variable {W : Type} [Weight W]

/-- Encodes arcs one after another. -/
def encodeArcs (codex : Codex W) : List (Arc W) → List (Arc W) × Codex W
  | [] => ([], codex)
  | arc :: rest =>
    let (arc, codex) := codex.encodeArc arc
    let (rest, codex) := codex.encodeArcs rest
    (arc :: rest, codex)

/-- Encodes a state.  Where weights are encoded, a final state gets an arc to the superfinal state
and is no longer final. -/
def encodeState (codex : Codex W) (superfinal : Nat) (s : State W) : State W × Codex W :=
  let (arcs, codex) := codex.encodeArcs s.arcs
  if codex.flags.weights && s.isFinal then
    let (arc, codex) := codex.encodeArc ⟨epsilon, epsilon, s.final, superfinal⟩
    ({ final := Weight.zero, arcs := arcs ++ [arc] }, codex)
  else ({ s with arcs }, codex)

/-- Encodes states one after another. -/
def encodeStates (codex : Codex W) (superfinal : Nat) : List (State W) → List (State W) × Codex W
  | [] => ([], codex)
  | s :: rest =>
    let (s, codex) := codex.encodeState superfinal s
    let (rest, codex) := codex.encodeStates superfinal rest
    (s :: rest, codex)

end Codex

namespace Machine
variable {W : Type} [Weight W]

/-- Whether encoding adds a superfinal state. -/
def needsSuperfinal (m : Machine W) (flags : Flags) : Bool :=
  flags.weights && m.states.any State.isFinal

/-- Encodes a machine; the codex grows as needed. -/
def encode (m : Machine W) (codex : Codex W) : Traced (Machine W × Codex W) := do
  let (states, grown) := codex.encodeStates m.size m.states
  let superfinal := m.needsSuperfinal codex.flags
  let added : List (State W) := if superfinal then [{ final := Weight.one }] else []
  let encoded : Machine W := { m with states := states ++ added }
  Traced.report
    (.encoded codex.flags.number encoded.size grown.entries.length superfinal)
  pure (encoded, grown)

/-! ## Decoding -/

/-- Decodes the arcs of a state; the first that does not decode decides the error. -/
def decodeState (codex : Codex W) (s : State W) : Except CodexError (State W) :=
  match s.arcs.mapM codex.decodeArc with
  | .ok arcs => .ok { s with arcs }
  | .error e => .error e

/-- Decodes states one after another, up to the first that does not decode; `number` is the number
of the first. -/
def decodeStates (codex : Codex W) :
    (number : Nat) → List (State W) → Traced (Except CodexError (List (State W)))
  | _, [] => pure (.ok [])
  | number, s :: rest =>
    match decodeState codex s with
    | .error e => do
      Traced.report (.decodeFailed number e)
      pure (.error e)
    | .ok s => do
      match ← decodeStates codex (number + 1) rest with
      | .error e => pure (.error e)
      | .ok rest => pure (.ok (s :: rest))

/-- Whether no state is final and every arc to the superfinal state reads and writes nothing. -/
def admitsSuperfinal (superfinal : Nat) (states : List (State W)) : Bool :=
  states.all fun s => !s.isFinal && s.arcs.all fun arc =>
    arc.target != superfinal || (arc.input == epsilon && arc.output == epsilon)

/-- Whether an arc leads to the superfinal state. -/
def entersSuperfinal (superfinal : Nat) (states : List (State W)) : Bool :=
  states.any fun s => s.arcs.any (·.target == superfinal)

/-- The superfinal state of a decoded machine: the last one, if it is not the start state, has the
final weight one and no arcs, is the only final state, and is entered, but only by arcs that read
and write nothing. -/
def superfinal? (m : Machine W) : Option Nat :=
  match m.states.getLast? with
  | none => none
  | some last =>
    let superfinal := m.size - 1
    let others := m.states.dropLast
    if m.start != some superfinal && last.final == Weight.one && last.arcs.isEmpty
        && admitsSuperfinal superfinal others && entersSuperfinal superfinal others then
      some superfinal
    else none

/-- A final weight and the weight of one more arc to the superfinal state; zero stands for no
weight so far. -/
def addFinal (sum weight : W) : W :=
  if sum == Weight.zero then weight else Weight.plus sum weight

/-- A state with the arcs to the superfinal state turned back into a final weight. -/
def foldState (superfinal : Nat) (s : State W) : State W :=
  let (moved, kept) := s.arcs.partition (·.target == superfinal)
  if moved.isEmpty then s
  else { final := moved.foldl (fun sum arc => addFinal sum arc.weight) s.final, arcs := kept }

/-- The machine with its superfinal state, the last one, folded away. -/
def foldSuperfinal (m : Machine W) (superfinal : Nat) : Machine W :=
  { m with states := m.states.dropLast.map (foldState superfinal) }

/-- Decodes a machine. -/
def decode (m : Machine W) (codex : Codex W) : Traced (Except CodexError (Machine W)) := do
  match ← decodeStates codex 0 m.states with
  | .error e => pure (.error e)
  | .ok states =>
    let decoded : Machine W := { m with states }
    if codex.flags.weights then
      match decoded.superfinal? with
      | none => pure (.ok decoded)
      | some superfinal =>
        Traced.report (.folded superfinal)
        pure (.ok (decoded.foldSuperfinal superfinal))
    else pure (.ok decoded)

end Machine
end WeightedTransducer

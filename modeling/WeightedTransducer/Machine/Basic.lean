import WeightedTransducer.Machine.Label
import WeightedTransducer.Weight.Basic

/-!
# Weighted transducers

A `Machine` has states, numbered from zero in the order in which they were added, and perhaps a
start state.  A state has a final weight, zero unless it is final, and its arcs in order.  An
operation on a state that does not exist is refused with a `MachineFault`, and so is an arc that
leads to one, so the machine stays as it was.
-/

namespace WeightedTransducer

/-- A transition from the state that holds it. -/
structure Arc (W : Type) where
  /-- The label read. -/
  input : Label
  /-- The label written. -/
  output : Label
  /-- The weight. -/
  weight : W
  /-- The state that the arc leads to. -/
  target : Nat
  deriving Repr

/-- Arcs are equal if their labels, weights and targets are. -/
instance {W : Type} [BEq W] : BEq (Arc W) where
  beq a b :=
    a.input == b.input && a.output == b.output && a.weight == b.weight && a.target == b.target

/-- A state of a machine. -/
structure State (W : Type) where
  /-- The final weight; zero if the state is not final. -/
  final : W
  /-- The arcs that leave the state. -/
  arcs : List (Arc W) := []
  deriving Repr

/-- States are equal if their final weights and arcs are. -/
instance {W : Type} [BEq W] : BEq (State W) where
  beq a b := a.final == b.final && a.arcs == b.arcs

/-- A weighted transducer. -/
structure Machine (W : Type) where
  /-- The states, by number. -/
  states : List (State W) := []
  /-- The start state. -/
  start : Option Nat := none
  deriving Repr

/-- Machines are equal if their states and start states are. -/
instance {W : Type} [BEq W] : BEq (Machine W) where
  beq a b := a.states == b.states && a.start == b.start

/-- Why an operation on a machine is refused. -/
inductive MachineFault where
  /-- The start state does not exist. -/
  | noStart (state : Nat)
  /-- The target of an arc does not exist. -/
  | noTarget (state : Nat)
  /-- The state does not exist. -/
  | noState (state : Nat)
  deriving DecidableEq, Repr

/-- The words for a fault, where it has any. -/
def MachineFault.message : MachineFault → Option String
  | noStart state => some ("set_start: no state " ++ toString state)
  | noTarget state => some ("add_arc: no destination state " ++ toString state)
  | noState _ => none

namespace State
variable {W : Type} [Weight W]

/-- Whether a state is final. -/
def isFinal (s : State W) : Bool :=
  !(s.final == Weight.zero)

end State

namespace Machine
variable {W : Type}

/-- The machine without states. -/
def empty : Machine W := {}

/-- How many states there are. -/
def size (m : Machine W) : Nat :=
  m.states.length

/-- The state of a number. -/
def state (m : Machine W) (s : Nat) : Except MachineFault (State W) :=
  match m.states[s]? with
  | some state => .ok state
  | none => .error (.noState s)

/-- The machine with a state changed. -/
def modify (m : Machine W) (s : Nat) (change : State W → State W) :
    Except MachineFault (Machine W) :=
  if s < m.size then .ok { m with states := m.states.modify s change } else .error (.noState s)

/-- Adds a state that is not final; its number is the number of states before. -/
def addState [Weight W] (m : Machine W) : Machine W :=
  { m with states := m.states ++ [{ final := Weight.zero }] }

/-- Makes a state the start state. -/
def setStart (m : Machine W) (s : Nat) : Except MachineFault (Machine W) :=
  if s < m.size then .ok { m with start := some s } else .error (.noStart s)

/-- Gives a state a final weight; zero makes it not final. -/
def setFinal (m : Machine W) (s : Nat) (weight : W) : Except MachineFault (Machine W) :=
  m.modify s fun state => { state with final := weight }

/-- Adds an arc to a state. -/
def addArc (m : Machine W) (s : Nat) (arc : Arc W) : Except MachineFault (Machine W) :=
  if arc.target < m.size then m.modify s fun state => { state with arcs := state.arcs ++ [arc] }
  else .error (.noTarget arc.target)

/-- Replaces the arcs of a state. -/
def setArcs (m : Machine W) (s : Nat) (arcs : List (Arc W)) : Except MachineFault (Machine W) :=
  m.modify s fun state => { state with arcs }

/-- Removes the last state with the arcs that lead to it; if it was the start state, there is none
afterwards. -/
def deleteLast (m : Machine W) : Machine W :=
  match m.size with
  | 0 => m
  | last + 1 =>
    { states := m.states.dropLast.map fun state =>
        { state with arcs := state.arcs.filter (·.target != last) }
      start := if m.start = some last then none else m.start }

/-- How many arcs there are in all. -/
def arcCount (m : Machine W) : Nat :=
  m.states.foldl (fun count s => count + s.arcs.length) 0

end Machine
end WeightedTransducer

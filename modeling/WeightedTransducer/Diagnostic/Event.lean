import WeightedTransducer.Codex.Error

/-!
# Diagnostic events

What the library reports beside its results.  An `Event` is what happened; `Event.level`,
`Event.target`, `Event.message` and `Event.fields` are how it is shown.
-/

namespace WeightedTransducer

/-- Something worth reporting. -/
inductive Event where
  /-- A weight was divided by zero. -/
  | divisionByZero (weightType : String)
  /-- The natural order was asked of a type that is not idempotent. -/
  | orderUndefined (weightType : String)
  /-- A random value was asked of a type that has no generator. -/
  | noGenerator (weightType : String)
  /-- A conversion between two types that have none was asked for. -/
  | noConversion (source target : String)
  /-- The law checker starts a round on three values. -/
  | testing (first second third : String)
  /-- A reader was given delimiters that cannot be told apart. -/
  | conflict (conflict : Delimiters.Conflict)
  /-- A reader failed at a depth of parentheses. -/
  | readFailed (error : ReadError) (depth : Nat)
  /-- A codex was read. -/
  | codexRead (weightType : String) (entries : Nat)
  /-- A machine was encoded. -/
  | encoded (flags states entries : Nat) (superfinal : Bool)
  /-- A stored codex has other flags than the ones asked for. -/
  | reusingFlags (requested stored : Nat)
  /-- An arc of a state could not be decoded. -/
  | decodeFailed (state : Nat) (error : CodexError)
  /-- The superfinal state of a decoded machine was folded away. -/
  | folded (superfinal : Nat)
  deriving DecidableEq, Repr

namespace Event

/-- How serious an event is. -/
inductive Level where
  | error
  | warning
  | debug
  | trace
  deriving DecidableEq, Repr

/-- The part of the library that reports an event. -/
inductive Target where
  | weight
  | composite
  | encoding
  deriving DecidableEq, Repr

/-- The name of a part of the library. -/
def Target.name : Target → String
  | weight => "wfst::weight"
  | composite => "wfst::composite"
  | encoding => "wfst::encode"

/-- The value of a field. -/
inductive Field where
  | text (text : String)
  | number (number : Nat)
  | flag (flag : Bool)
  deriving DecidableEq, Repr

/-- How serious the event is. -/
def level : Event → Level
  | orderUndefined _ | noGenerator _ | noConversion .. => .error
  | divisionByZero _ | decodeFailed .. => .warning
  | testing .. => .trace
  | _ => .debug

/-- The part of the library that the event comes from. -/
def target : Event → Target
  | divisionByZero _ | orderUndefined _ | noGenerator _ | noConversion .. | testing .. => .weight
  | conflict _ | readFailed .. => .composite
  | _ => .encoding

/-- The event in words. -/
def message : Event → String
  | divisionByZero _ => "divide: division by zero has no solution"
  | orderUndefined _ => "NaturalLess: weight type is not idempotent"
  | noGenerator _ => "WeightGenerate: no random generator"
  | noConversion .. => "WeightConvert: can't convert weight"
  | testing .. => "testing weights"
  | conflict _ => "composite reader has an invalid config"
  | readFailed .. => "composite weight read failed"
  | codexRead .. => "codex read"
  | encoded .. => "encoded fst"
  | reusingFlags .. => "reusing codex flags"
  | decodeFailed .. => "decode failed"
  | folded _ => "folded superfinal state"

/-- The named details of the event. -/
def fields : Event → List (String × Field)
  | divisionByZero weightType | orderUndefined weightType | noGenerator weightType =>
    [("weight_type", .text weightType)]
  | noConversion source target => [("from", .text source), ("to", .text target)]
  | testing first second third => [("w1", .text first), ("w2", .text second), ("w3", .text third)]
  | conflict c => [("error", .text c.message)]
  | readFailed error depth => [("error", .text error.message), ("depth", .number depth)]
  | codexRead weightType entries =>
    [("weight_type", .text weightType), ("entries", .number entries)]
  | encoded flags states entries superfinal =>
    [("flags", .number flags), ("states", .number states), ("codex_entries", .number entries),
      ("superfinal", .flag superfinal)]
  | reusingFlags requested stored => [("requested", .number requested), ("codex", .number stored)]
  | decodeFailed state error => [("state", .number state), ("error", .text error.message)]
  | folded superfinal => [("superfinal", .number superfinal)]

end Event
end WeightedTransducer

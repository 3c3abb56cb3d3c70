import WeightedTransducer.Composite.Textual
import WeightedTransducer.Number.Binary
import WeightedTransducer.Weight.Properties
import WeightedTransducer.Weight.SipHash

/-!
# Weights

A weight type is a semiring: `plus` with its identity `zero`, and `times` with its identity `one`.
`Weight W` holds the operations; which laws they satisfy is declared by `Weight.properties` and
stated elsewhere.  Some values of the type are no members of the semiring; `Weight.noWeight` is one
of them and stands for a result that does not exist.  Equality is the type's own `==`, which may
identify values that differ.  Weights are keys of hash tables, so the one law that every type obeys
is that equal values feed the same words to a hash (`Weight.hashWords_congr`).

A weight type comes with a type of reversed weights, to which `Reversible.reverse` leads and from
which `Reversible.restore` leads back.
-/

namespace WeightedTransducer

/-- The side from which a product is divided. -/
inductive Side where
  /-- Find the right factor from the left one. -/
  | left
  /-- Find the left factor from the right one. -/
  | right
  /-- Find either factor, where `times` is commutative. -/
  | any
  deriving DecidableEq, Repr

/-- The operations of a weight type, and that its hashes agree with its equality. -/
class Weight (W : Type) extends BEq W, Textual W where
  /-- The name of the type. -/
  typeName : String
  /-- The laws that the type declares. -/
  properties : Properties
  /-- The identity of `plus`. -/
  zero : W
  /-- The identity of `times`. -/
  one : W
  /-- A value that is no member. -/
  noWeight : W
  /-- The sum. -/
  plus : W → W → W
  /-- The product. -/
  times : W → W → W
  /-- Whether a value is a member of the semiring. -/
  isMember : W → Bool
  /-- The quotient of the first value by the second; `noWeight` where there is none. -/
  divide : Side → W → W → Traced W
  /-- A copy of a value. -/
  clone : W → W := fun w => w
  /-- The representative of the values within a tolerance. -/
  quantize : Single → W → W := fun _ w => clone w
  /-- Whether two values are equal within a tolerance. -/
  approxEq : Single → W → W → Bool := fun _ a b => a == b
  /-- The words that a value's hash is made of. -/
  hashWords : W → List UInt32
  /-- Equal values have the same words. -/
  hashWords_congr {a b : W} (h : (a == b) = true) : hashWords a = hashWords b
  /-- The hash of a value. -/
  hashValue : W → UInt64 := fun w => SipHash.hash (hashWords w)
  /-- The text that shows a value to a programmer. -/
  debug : W → String

/-- A weight type `W` with the type `R` of its reversed weights. -/
class Reversible (W : Type) (R : outParam Type) where
  /-- The reversed weight. -/
  reverse : W → R
  /-- The weight that a reversed weight is the reverse of. -/
  restore : R → W

namespace Weight
variable {W : Type} [Weight W]

/-- The tolerance in use where none is given, 1/1024. -/
def defaultDelta : Single :=
  Binary.div (Binary.ofNat 1) (Binary.ofNat 1024)

/-- How many different finite values a random weight is drawn from. -/
def sampleCount : Nat := 5

/-- The product of `n` factors `w`, multiplied from the left. -/
def power (w : W) (n : Nat) : W :=
  Nat.repeat (times · w) n one

theorem power_zero (w : W) : power w 0 = one := rfl

/-- A power is the one before times the weight. -/
theorem power_succ (w : W) (n : Nat) : power w (n + 1) = times (power w n) w := rfl

end Weight
end WeightedTransducer

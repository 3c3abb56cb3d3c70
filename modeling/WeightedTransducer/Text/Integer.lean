import WeightedTransducer.Number.Decimal

/-!
# The text of whole numbers

`writeInteger` writes a whole number in decimal digits with a minus sign where it needs one.
`integer?` reads one within bounds: an optional plus sign, or a minus sign where negative numbers
are within the bounds, and at least one digit.
-/

namespace WeightedTransducer.Text

/-- The decimal digits of a whole number, after a minus sign if it is negative. -/
def writeInteger (value : Int) : List Char :=
  if value < 0 then '-' :: Nat.toDigits 10 value.natAbs else Nat.toDigits 10 value.natAbs

/-- Reads a whole number from `least` to `greatest`; the minus sign is known only where `least` is
negative. -/
def integer? (least greatest : Int) (text : List Char) : Option Int := do
  let (negative, body) := takeSign text
  let size ← digits? body
  let value := signed negative size
  if negative && 0 ≤ least then none
  else if least ≤ value && value ≤ greatest then some value
  else none

/-- Reads a natural number up to `greatest`. -/
def natural? (greatest : Nat) (text : List Char) : Option Nat :=
  (integer? 0 greatest text).map Int.toNat

end WeightedTransducer.Text

import WeightedTransducer.Number.Shortest
import WeightedTransducer.Text.Blank
import WeightedTransducer.Weight.Random

/-!
# Costs

A cost is a 32-bit value that adds along a path: the product of two costs is their sum, and
infinity is the zero of the semiring.  Minus infinity and the values that are not a number are no
members.  This module holds what the semirings of costs have in common: everything but `plus`.
-/

namespace WeightedTransducer.Cost

/-- The impossible cost. -/
def zero : Single := .infinity false

/-- The cost of nothing. -/
def one : Single := Binary.zero false

/-- No cost. -/
def invalid : Single := .quiet false

/-- Whether a value is a cost. -/
def isMember : Single → Bool
  | .nan .. => false
  | .infinity negative => !negative
  | .finite .. => true

/-- Equality under which the two zeros are equal, and all values that are not a number. -/
def eqv (a b : Single) : Bool :=
  a.same b || (a.isNan && b.isNan)

/-- Costs are equal if they stand at the same place, or at none. -/
theorem eqv_iff {a b : Single} : eqv a b = true ↔ a.place = b.place := by
  unfold eqv Binary.same
  rw [Binary.isNan_eq, Binary.isNan_eq]
  cases a.place <;> cases b.place <;> simp

/-- The product of two costs: their sum, and infinity if one is infinite. -/
def times (a b : Single) : Single :=
  if !isMember a || !isMember b then invalid
  else if a.same zero || b.same zero then zero
  else a.add b

/-- The quotient of two costs: their difference.  Dividing by infinity is reported and has no
result. -/
def divide (typeName : String) (a b : Single) : Traced Single := do
  if !isMember a || !isMember b then pure invalid
  else if b.same zero then
    Traced.report (.divisionByZero typeName)
    pure invalid
  else if a.same zero then pure zero
  else pure (a.sub b)

/-- Half of one. -/
def half : Single := Binary.div (Binary.ofNat 1) (Binary.ofNat 2)

/-- The multiple of `delta` nearest to a finite value, halves upwards, rounding at every step. -/
def quantize (delta value : Single) : Single :=
  if value.isFinite then ((value.div delta).add half).floor.mul delta else value

/-- Whether two values are equal or differ by at most `delta`. -/
def approxEq (delta a b : Single) : Bool :=
  eqv a b || (a.le (b.add delta) && b.le (a.add delta))

/-- The word that stands for a value in a hash: both zeros have the word of the positive one, and
all values that are not a number that of the quiet one. -/
def hashWord (value : Single) : UInt32 :=
  if value.isNan then Single.toBits (.quiet false)
  else Single.toBits (value.add (Binary.zero false))

/-- Equal costs have the same word. -/
theorem hashWord_congr {a b : Single} (h : eqv a b = true) : hashWord a = hashWord b := by
  have hplace := eqv_iff.mp h
  unfold hashWord
  rw [Binary.isNan_eq, Binary.isNan_eq, hplace, Binary.add_zero_congr hplace]

/-- Costs are written without an exponent, and whole ones without a point. -/
def style : NumberStyle where
  positional _ := true
  showsPoint := false
  infinity := "Infinity"
  nan := "BadNumber"

/-- Costs are shown to programmers with a point, and with an exponent from `1e16` on and below
`1e-4`. -/
def debugStyle : NumberStyle where
  positional power := -4 ≤ power && power < 16
  showsPoint := true
  infinity := "inf"
  nan := "NaN"

/-- The text of a cost. -/
def write (value : Single) : List Char :=
  style.write value

/-- Reads the text of a cost; `typeName` is what the type is called when the text is refused. -/
def read (typeName : String) (text : List Char) : Except ReadError Single :=
  if text = "Infinity".toList then .ok (.infinity false)
  else if text = "-Infinity".toList then .ok (.infinity true)
  else if text = "BadNumber".toList then .ok invalid
  else match Binary.read? text with
    | some value => .ok value
    | none => .error (.element (String.ofList text) typeName)

/-- A whole cost below `Weight.sampleCount`, or infinity where that is allowed. -/
def random {σ : Type} [Source σ] (allowZero : Bool) (source : σ) : Single × σ :=
  let bound := Weight.sampleCount + if allowZero then 1 else 0
  let (n, source) := Source.below bound (Nat.add_pos_left (by decide) _) source
  (if n.val = Weight.sampleCount then zero else Binary.ofNat n.val, source)

end WeightedTransducer.Cost

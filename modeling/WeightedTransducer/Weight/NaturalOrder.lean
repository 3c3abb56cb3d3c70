import WeightedTransducer.Weight.Basic

/-!
# The natural order

In an idempotent semiring `a ≤ b` means `a + b = a`.  `NaturalOrder.less` is the strict order and
`NaturalOrder.compare` compares two weights, with no answer for a pair that is not ordered.  The
order is total where the type declares the path property.
-/

namespace WeightedTransducer

/-- The type is not idempotent, so it has no natural order. -/
structure NotIdempotent where
  /-- The name of the type. -/
  typeName : String
  deriving DecidableEq, Repr

/-- The words for the error. -/
def NotIdempotent.message (e : NotIdempotent) : String :=
  "weight type is not idempotent: " ++ e.typeName

/-- The natural order of a weight type. -/
structure NaturalOrder (W : Type) where
  /-- Whether the type declares that it is idempotent, so that the order means something. -/
  valid : Bool
  deriving DecidableEq, Repr

namespace NaturalOrder
variable {W : Type} [Weight W]

/-- Whether a type declares that it is idempotent. -/
def isDefined (W : Type) [Weight W] : Bool :=
  (Weight.properties W).contains .idempotent

/-- The order of a type, reported if the type is not idempotent. -/
def create : Traced (NaturalOrder W) := do
  if !isDefined W then Traced.report (.orderUndefined (Weight.typeName W))
  pure ⟨isDefined W⟩

/-- The order of a type that declares that it is idempotent. -/
def create? : Except NotIdempotent (NaturalOrder W) :=
  if isDefined W then .ok ⟨true⟩ else .error ⟨Weight.typeName W⟩

/-- Whether any two weights are ordered. -/
def isTotal (order : NaturalOrder W) : Bool :=
  order.valid && (Weight.properties W).contains .path

/-- Whether the first weight is strictly below the second. -/
def less (_order : NaturalOrder W) (a b : W) : Bool :=
  Weight.plus a b == a && !(a == b)

/-- How two weights are ordered, if they are. -/
def compare (order : NaturalOrder W) (a b : W) : Option Ordering :=
  if a == b then some .eq
  else if order.less a b then some .lt
  else if order.less b a then some .gt
  else none

end NaturalOrder
end WeightedTransducer

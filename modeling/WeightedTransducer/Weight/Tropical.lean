import WeightedTransducer.Weight.Cost

/-!
# The tropical semiring

The weight of shortest paths: a sum of costs is the lesser one.
-/

namespace WeightedTransducer

/-- A cost of which the least counts. -/
structure Tropical where
  /-- The cost. -/
  value : Single
  deriving Inhabited

namespace Tropical

/-- The lesser of two costs. -/
def plus (a b : Tropical) : Tropical :=
  if !Cost.isMember a.value || !Cost.isMember b.value then ⟨Cost.invalid⟩
  else if a.value.le b.value then a else b

/-- Reads a cost after dropping the white space around it. -/
def ofText (text : List Char) : Except ReadError Tropical :=
  (Cost.read "tropical" (Text.trim text)).map Tropical.mk

instance : Textual Tropical where
  write _ w := Output.text (Cost.write w.value)
  read _ text := pure ((Cost.read "tropical" text).map Tropical.mk)

instance : Weight Tropical where
  beq a b := Cost.eqv a.value b.value
  typeName := "tropical"
  properties :=
    ((Properties.semiring.union .commutative).union .idempotent).union .path
  zero := ⟨Cost.zero⟩
  one := ⟨Cost.one⟩
  noWeight := ⟨Cost.invalid⟩
  plus := plus
  times a b := ⟨Cost.times a.value b.value⟩
  isMember w := Cost.isMember w.value
  divide _ a b := Tropical.mk <$> Cost.divide "tropical" a.value b.value
  quantize delta w := ⟨Cost.quantize delta w.value⟩
  approxEq delta a b := Cost.approxEq delta a.value b.value
  hashWords w := [Cost.hashWord w.value]
  hashWords_congr h := congrArg (fun word => [word]) (Cost.hashWord_congr h)
  debug w := "TropicalWeight(" ++ String.ofList (Cost.debugStyle.write w.value) ++ ")"

instance : Reversible Tropical Tropical where
  reverse w := w
  restore w := w

instance : RandomWeight Tropical where
  random allowZero source :=
    let (value, source) := Cost.random allowZero source
    pure (⟨value⟩, source)

end Tropical
end WeightedTransducer

import WeightedTransducer.Number.Exponential
import WeightedTransducer.Weight.Cost

/-!
# The log semiring

The weight of probabilities: a cost is the negative logarithm of one, and a sum of costs is the
cost of the sum of the probabilities.  It is calculated with the exponential and the logarithm of
`Elementary`.
-/

namespace WeightedTransducer

/-- A cost that is the negative logarithm of a probability. -/
structure Log where
  /-- The cost. -/
  value : Single
  deriving Inhabited

namespace Log

/-- `-ln (e ^ -low + e ^ -high)` for `low ≤ high`, computed in 64 bits. -/
def combine [Elementary] (low high : Single) : Single :=
  let low : Double := low.toFormat .double
  let high : Double := high.toFormat .double
  (low.sub (Elementary.logOnePlus (Elementary.exp (low.sub high)))).toFormat .single

/-- The cost of the sum of two probabilities; infinity is the cost of the probability zero. -/
def plus [Elementary] (a b : Log) : Log :=
  if !Cost.isMember a.value || !Cost.isMember b.value then ⟨Cost.invalid⟩
  else if a.value.same Cost.zero then b
  else if b.value.same Cost.zero then a
  else if a.value.le b.value then ⟨combine a.value b.value⟩
  else ⟨combine b.value a.value⟩

/-- Reads a cost after dropping the white space around it. -/
def ofText (text : List Char) : Except ReadError Log :=
  (Cost.read "log" (Text.trim text)).map Log.mk

instance : Textual Log where
  write _ w := Output.text (Cost.write w.value)
  read _ text := pure ((Cost.read "log" text).map Log.mk)

instance [Elementary] : Weight Log where
  beq a b := Cost.eqv a.value b.value
  typeName := "log"
  properties := Properties.semiring.union .commutative
  zero := ⟨Cost.zero⟩
  one := ⟨Cost.one⟩
  noWeight := ⟨Cost.invalid⟩
  plus := plus
  times a b := ⟨Cost.times a.value b.value⟩
  isMember w := Cost.isMember w.value
  divide _ a b := Log.mk <$> Cost.divide "log" a.value b.value
  quantize delta w := ⟨Cost.quantize delta w.value⟩
  approxEq delta a b := Cost.approxEq delta a.value b.value
  hashWords w := [Cost.hashWord w.value]
  hashWords_congr h := congrArg (fun word => [word]) (Cost.hashWord_congr h)
  debug w := "LogWeight(" ++ String.ofList (Cost.debugStyle.write w.value) ++ ")"

instance : Reversible Log Log where
  reverse w := w
  restore w := w

instance [Elementary] : RandomWeight Log where
  random allowZero source :=
    let (value, source) := Cost.random allowZero source
    pure (⟨value⟩, source)

end Log
end WeightedTransducer

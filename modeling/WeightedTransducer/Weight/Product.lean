import WeightedTransducer.Composite.Reader
import WeightedTransducer.Composite.Writer
import WeightedTransducer.Weight.Random

/-!
# Products of semirings

A pair of weights, combined component by component.  It declares the laws that both components
declare, except the path property, which no pair has.  Its text is a composite value of two
elements; the second may hold the separator without parentheses.
-/

namespace WeightedTransducer

/-- A pair of weights. -/
structure Product (A B : Type) where
  /-- The first component. -/
  first : A
  /-- The second component. -/
  second : B
  deriving Inhabited

namespace Product
variable {A B : Type}

/-- Takes a pair. -/
def reading [Textual A] [Textual B] : Reading (Product A B) := do
  Reading.opening
  let (first, _) ← Reading.element false
  let (second, _) ← Reading.element true
  Reading.closing
  pure ⟨first, second⟩

instance [Textual A] [Textual B] : Textual (Product A B) where
  write delimiters w :=
    CompositeWriter.write delimiters
      [CompositeWriter.element w.first, CompositeWriter.element w.second]
  read delimiters text := Reading.runOn delimiters text reading

instance [Weight A] [Weight B] : Weight (Product A B) where
  beq v w := v.first == w.first && v.second == w.second
  typeName := Weight.typeName A ++ "_X_" ++ Weight.typeName B
  properties :=
    ((Weight.properties A).inter (Weight.properties B)).inter
      ((Properties.semiring.union .commutative).union .idempotent)
  zero := ⟨Weight.zero, Weight.zero⟩
  one := ⟨Weight.one, Weight.one⟩
  noWeight := ⟨Weight.noWeight, Weight.noWeight⟩
  plus v w := ⟨Weight.plus v.first w.first, Weight.plus v.second w.second⟩
  times v w := ⟨Weight.times v.first w.first, Weight.times v.second w.second⟩
  isMember w := Weight.isMember w.first && Weight.isMember w.second
  divide side v w := do
    let first ← Weight.divide side v.first w.first
    let second ← Weight.divide side v.second w.second
    pure ⟨first, second⟩
  clone w := ⟨Weight.clone w.first, Weight.clone w.second⟩
  quantize delta w := ⟨Weight.quantize delta w.first, Weight.quantize delta w.second⟩
  approxEq delta v w :=
    Weight.approxEq delta v.first w.first && Weight.approxEq delta v.second w.second
  hashWords w := Weight.hashWords w.first ++ Weight.hashWords w.second
  hashWords_congr h := by
    obtain ⟨hfirst, hsecond⟩ := Bool.and_eq_true_iff.mp h
    rw [Weight.hashWords_congr hfirst, Weight.hashWords_congr hsecond]
  debug w :=
    "ProductWeight \x7b value1: " ++ Weight.debug w.first ++ ", value2: " ++ Weight.debug w.second
      ++ " \x7d"

instance {R S : Type} [Reversible A R] [Reversible B S] :
    Reversible (Product A B) (Product R S) where
  reverse w := ⟨Reversible.reverse w.first, Reversible.reverse w.second⟩
  restore w := ⟨Reversible.restore w.first, Reversible.restore w.second⟩

/-- Draws a component of each, neither of them zero. -/
def randomPair [Weight A] [Weight B] [RandomWeight A] [RandomWeight B] {σ : Type} [Source σ]
    (source : σ) : Traced (Product A B × σ) := do
  let (first, source) ← RandomWeight.random false source
  let (second, source) ← RandomWeight.random false source
  pure (⟨first, second⟩, source)

instance [Weight A] [Weight B] [RandomWeight A] [RandomWeight B] :
    RandomWeight (Product A B) where
  random allowZero source :=
    if allowZero then
      match Source.oneIn (Weight.sampleCount + 1) (Nat.succ_pos _) source with
      | (true, source) => pure (Weight.zero, source)
      | (false, source) => randomPair source
    else randomPair source

end Product
end WeightedTransducer

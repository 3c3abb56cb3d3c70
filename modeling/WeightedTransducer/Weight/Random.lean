import WeightedTransducer.Number.Binary
import WeightedTransducer.Weight.Basic

/-!
# Random weights

A `Source` of randomness draws a number below a bound, and an event that happens once in so many
times.  `WordSource` draws them from given words of 64 bits, without bias; `SeededSource` from
words that it computes from a seed.  `RandomWeight` draws a weight from any source: zero only where
it is allowed, and otherwise a small non-zero member, so that it can be divided by.
-/

namespace WeightedTransducer

/-- A source of randomness. -/
class Source (σ : Type) where
  /-- A number below a bound. -/
  below : (n : Nat) → 0 < n → σ → Fin n × σ
  /-- An event that happens once in `n` times. -/
  oneIn : (n : Nat) → 0 < n → σ → Bool × σ

/-! ## Given words -/

/-- Words of 64 bits to draw from; after the last one come zeros. -/
structure WordSource where
  /-- The words not yet drawn. -/
  words : List UInt64
  /-- How many words have been drawn. -/
  used : Nat := 0
  deriving DecidableEq, Repr

namespace WordSource

/-- The greatest low half of a product that is accepted, so that every number below `n` is equally
likely: one less than `n` shifted to the top of a word. -/
def zone (n : Nat) : Nat :=
  n * 2 ^ (63 - n.log2) - 1

/-- The high half of the product of `n` and a word is below `n`. -/
theorem high_lt {n : Nat} (hn : 0 < n) (word : UInt64) : word.toNat * n / 2 ^ 64 < n := by
  rw [Nat.div_lt_iff_lt_mul (Nat.two_pow_pos _), Nat.mul_comm]
  exact Nat.mul_lt_mul_of_pos_left word.toNat_lt hn

/-- Draws words until the low half of a word's product with `n` is accepted; the high half is the
number drawn. -/
def draw (n : Nat) (hn : 0 < n) : (words : List UInt64) → (used : Nat) → Fin n × WordSource
  | [], used => (⟨0, hn⟩, ⟨[], used + 1⟩)
  | word :: rest, used =>
    if word.toNat * n % 2 ^ 64 ≤ zone n then
      (⟨word.toNat * n / 2 ^ 64, high_lt hn word⟩, ⟨rest, used + 1⟩)
    else draw n hn rest (used + 1)

/-- The least word that does not stand for an event that happens once in `n` times: the 64-bit
value nearest to `1 / n`, times `2 ^ 64`. -/
def threshold (n : Nat) : Nat :=
  match (Binary.div (Binary.ofNat 1) (Binary.ofNat n) : Double) with
  | .finite _ units _ => units * 2 ^ 64 / 2 ^ Format.double.scale
  | _ => 0

instance : Source WordSource where
  below n hn source := draw n hn source.words source.used
  oneIn n _ source :=
    ((source.words.head?.getD 0).toNat < threshold n, ⟨source.words.tail, source.used + 1⟩)

end WordSource

/-! ## Computed words -/

/-- Words computed from a seed and a position. -/
structure SeededSource where
  /-- The seed. -/
  seed : UInt64
  /-- How many words have been drawn. -/
  position : Nat := 0
  deriving DecidableEq, Repr

namespace SeededSource

/-- The word at the current position: the seed, moved on by a constant for each position, mixed by
two multiplications. -/
def word (source : SeededSource) : UInt64 :=
  let z := source.seed + 0x9e3779b97f4a7c15 * UInt64.ofNat (source.position + 1)
  let z := (z ^^^ (z >>> 30)) * 0xbf58476d1ce4e5b9
  let z := (z ^^^ (z >>> 27)) * 0x94d049bb133111eb
  z ^^^ (z >>> 31)

instance : Source SeededSource where
  below n hn source :=
    (⟨source.word.toNat * n / 2 ^ 64, WordSource.high_lt hn source.word⟩,
      { source with position := source.position + 1 })
  oneIn n _ source :=
    (source.word.toNat * n < 2 ^ 64, { source with position := source.position + 1 })

end SeededSource

/-! ## Weights -/

/-- How weights of a type are drawn.  A type that does not say has no generator: drawing is
reported and gives no weight. -/
class RandomWeight (W : Type) [Weight W] where
  /-- Draws a weight; zero only where it is allowed. -/
  random {σ : Type} [Source σ] (allowZero : Bool) (source : σ) : Traced (W × σ) := do
    Traced.report (.noGenerator (Weight.typeName W))
    pure (Weight.noWeight, source)

/-- Draws `count` weights one after another. -/
def RandomWeight.sample {W : Type} [Weight W] [RandomWeight W] {σ : Type} [Source σ]
    (allowZero : Bool) : (count : Nat) → σ → Traced (List W × σ)
  | 0, source => pure ([], source)
  | count + 1, source => do
    let (first, source) ← RandomWeight.random (W := W) allowZero source
    let (rest, source) ← sample allowZero count source
    pure (first :: rest, source)

end WeightedTransducer

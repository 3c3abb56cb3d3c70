/-!
# Hash values

`SipHash.hash` is SipHash with one round for each block and three at the end, under the key zero,
of a list of 32-bit words in little-endian order.
-/

namespace WeightedTransducer.SipHash

/-- The four words of state. -/
structure State where
  v0 : UInt64
  v1 : UInt64
  v2 : UInt64
  v3 : UInt64

/-- The state under the key zero. -/
def State.initial : State where
  v0 := 0x736f6d6570736575
  v1 := 0x646f72616e646f6d
  v2 := 0x6c7967656e657261
  v3 := 0x7465646279746573

/-- Rotates a word to the left by fewer than 64 bits, and more than none. -/
def rotate (x : UInt64) (bits : UInt64) : UInt64 :=
  (x <<< bits) ||| (x >>> (64 - bits))

/-- One round of mixing. -/
def State.round (s : State) : State :=
  let v0 := s.v0 + s.v1
  let v1 := rotate s.v1 13 ^^^ v0
  let v0 := rotate v0 32
  let v2 := s.v2 + s.v3
  let v3 := rotate s.v3 16 ^^^ v2
  let v0 := v0 + v3
  let v3 := rotate v3 21 ^^^ v0
  let v2 := v2 + v1
  let v1 := rotate v1 17 ^^^ v2
  let v2 := rotate v2 32
  ⟨v0, v1, v2, v3⟩

/-- Mixes one block into the state. -/
def State.absorb (s : State) (block : UInt64) : State :=
  let s := { s with v3 := s.v3 ^^^ block }.round
  { s with v0 := s.v0 ^^^ block }

/-- Mixes the words in, two to a block; the last block has the length in bytes on top. -/
def State.absorbAll (size : UInt64) : State → List UInt32 → State
  | s, low :: high :: rest => absorbAll size (s.absorb (low.toUInt64 ||| high.toUInt64 <<< 32)) rest
  | s, [low] => s.absorb (low.toUInt64 ||| size <<< 56)
  | s, [] => s.absorb (size <<< 56)

/-- The hash of a list of words. -/
def hash (words : List UInt32) : UInt64 :=
  let s := State.initial.absorbAll (UInt64.ofNat (4 * words.length)) words
  let s := { s with v2 := s.v2 ^^^ 0xff }.round.round.round
  s.v0 ^^^ s.v1 ^^^ s.v2 ^^^ s.v3

end WeightedTransducer.SipHash

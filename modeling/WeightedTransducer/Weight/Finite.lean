import WeightedTransducer.Weight.Random

/-!
# Weights given by tables

A `FiniteTable` gives the operations of a weight type with finitely many values, the numbers below
some bound, as tables.  Nothing is required of them, so they can break any law of the semiring, and
a copy can have another hash than its original.  `FiniteWeight t` is the weight type of the table
`t`.
-/

namespace WeightedTransducer

/-- The operations of a weight type as tables; a row holds the results for one left operand. -/
structure FiniteTable where
  /-- The sums. -/
  plus : Array (Array Nat)
  /-- The products. -/
  times : Array (Array Nat)
  /-- The quotients from the left; a row holds the results for one dividend. -/
  divideLeft : Array (Array Nat)
  /-- The quotients from the right. -/
  divideRight : Array (Array Nat)
  /-- The quotients from either side. -/
  divideAny : Array (Array Nat)
  /-- The reversed values. -/
  reverse : Array Nat
  /-- The representatives. -/
  quantize : Array Nat
  /-- Which values are members. -/
  members : Array Bool
  /-- The identity of `plus`. -/
  zero : Nat
  /-- The identity of `times`. -/
  one : Nat
  /-- The value that stands for no result. -/
  noWeight : Nat
  /-- The laws that the type declares. -/
  properties : Properties
  /-- The texts that are written. -/
  texts : Array String
  /-- The texts that are read; the first that fits counts. -/
  spellings : Array String
  /-- Which pairs are equal within a tolerance; without a table, the equal ones. -/
  approx : Option (Array (Array Bool)) := none
  /-- The copies; without a table, the values themselves. -/
  copies : Option (Array Nat) := none
  /-- The hashes; without a table, the numbers of the values. -/
  hashes : Option (Array Nat) := none
  deriving DecidableEq

/-- A value of the type that a table describes. -/
structure FiniteWeight (t : FiniteTable) where
  /-- The number of the value. -/
  index : Nat
  deriving DecidableEq, Repr

/-- The entry of a table of two operands. -/
def FiniteTable.entry (rows : Array (Array Nat)) (a b : Nat) : Nat :=
  (rows.getD a #[]).getD b 0

namespace FiniteWeight
variable {t : FiniteTable}

instance : Textual (FiniteWeight t) where
  write _ w := Output.text (t.texts.getD w.index "").toList
  read _ text :=
    match t.spellings.findIdx? (·.toList = text) with
    | some index => pure (.ok ⟨index⟩)
    | none => pure (.error (.element (String.ofList text) "table"))

instance : Weight (FiniteWeight t) where
  beq a b := a.index == b.index
  typeName := "table"
  properties := t.properties
  zero := ⟨t.zero⟩
  one := ⟨t.one⟩
  noWeight := ⟨t.noWeight⟩
  plus a b := ⟨FiniteTable.entry t.plus a.index b.index⟩
  times a b := ⟨FiniteTable.entry t.times a.index b.index⟩
  isMember w := t.members.getD w.index false
  divide side a b :=
    let rows := match side with
      | .left => t.divideLeft
      | .right => t.divideRight
      | .any => t.divideAny
    pure ⟨FiniteTable.entry rows a.index b.index⟩
  clone w :=
    match t.copies with
    | some copies => ⟨copies.getD w.index 0⟩
    | none => w
  quantize _ w := ⟨t.quantize.getD w.index 0⟩
  approxEq _ a b :=
    match t.approx with
    | some rows => (rows.getD a.index #[]).getD b.index false
    | none => a.index == b.index
  hashWords w := [UInt32.ofNat w.index]
  hashWords_congr h := congrArg (fun index => [UInt32.ofNat index]) (eq_of_beq h)
  hashValue w :=
    match t.hashes with
    | some hashes => UInt64.ofNat (hashes.getD w.index 0)
    | none => UInt64.ofNat w.index
  debug w := "X(" ++ toString w.index ++ ")"

instance : Reversible (FiniteWeight t) (FiniteWeight t) where
  reverse w := ⟨t.reverse.getD w.index 0⟩
  restore w := ⟨t.reverse.getD w.index 0⟩

instance : RandomWeight (FiniteWeight t) where

end FiniteWeight
end WeightedTransducer

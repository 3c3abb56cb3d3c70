import WeightedTransducer.Weight.Random

/-!
# The boolean semiring

Truth values under disjunction and conjunction.
-/

namespace WeightedTransducer

/-- A truth value, or none. -/
inductive Boolean where
  /-- False, the zero. -/
  | no
  /-- True, the one. -/
  | yes
  /-- No truth value. -/
  | neither
  deriving DecidableEq, Repr, Inhabited

namespace Boolean

/-- Disjunction. -/
def plus : Boolean → Boolean → Boolean
  | neither, _ | _, neither => neither
  | yes, _ | _, yes => yes
  | no, no => no

/-- Conjunction. -/
def times : Boolean → Boolean → Boolean
  | neither, _ | _, neither => neither
  | yes, yes => yes
  | _, _ => no

/-- Only true divides. -/
def divide (a : Boolean) : Boolean → Boolean
  | yes => a
  | _ => neither

/-- The values and their texts. -/
def text : Boolean → String
  | no => "0"
  | yes => "1"
  | neither => "BadNumber"

instance : Textual Boolean where
  write _ w := Output.text w.text.toList
  read _ text :=
    match [no, yes, neither].find? (·.text.toList = text) with
    | some w => pure (.ok w)
    | none => pure (.error (.element (String.ofList text) "boolean"))

instance : Weight Boolean where
  beq a b := decide (a = b)
  typeName := "boolean"
  properties :=
    ((Properties.semiring.union .commutative).union .idempotent).union .path
  zero := no
  one := yes
  noWeight := neither
  plus := plus
  times := times
  isMember w := decide (w ≠ neither)
  divide _ a b := pure (a.divide b)
  hashWords
    | no => [0]
    | yes => [1]
    | neither => [2]
  hashWords_congr h := by rw [of_decide_eq_true h]
  debug
    | no => "False"
    | yes => "True"
    | neither => "NoWeight"

instance : Reversible Boolean Boolean where
  reverse w := w
  restore w := w

instance : RandomWeight Boolean where

end Boolean
end WeightedTransducer

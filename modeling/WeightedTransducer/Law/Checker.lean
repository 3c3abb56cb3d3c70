import WeightedTransducer.Law.Basic
import WeightedTransducer.Weight.NaturalOrder
import WeightedTransducer.Weight.Random

/-!
# Checking the laws on samples

A `LawChecker` draws weights three at a time and holds them against the laws that every weight type
has to satisfy and those that the type declares.  What is checked is a list of `Check`s in a fixed
order (`LawChecker.identities`, then for each three samples `LawChecker.round`), and the answer is
the first one that does not hold.
-/

namespace WeightedTransducer

/-- One law on given values. -/
structure Check where
  /-- The law. -/
  law : Law
  /-- Whether it holds. -/
  holds : Bool
  /-- The values, in words. -/
  detail : Unit → String

/-- The first check that does not hold; the ones after it are not made, so they report nothing. -/
def Check.firstFailure : List (Traced Check) → Traced (Except Violation Unit)
  | [] => pure (.ok ())
  | check :: rest => do
    let c ← check
    if c.holds then firstFailure rest else pure (.error ⟨c.law, c.detail ()⟩)

/-- How laws are checked. -/
structure LawChecker where
  /-- The delimiters of the texts that are written and read. -/
  delimiters : Delimiters := {}
  /-- The tolerance under which results count as equal. -/
  delta : Single := Weight.defaultDelta

namespace LawChecker
variable {W R : Type} [Weight W]

/-- A check that reports nothing. -/
def plain (law : Law) (holds : Bool) (detail : Unit → String) : Traced Check :=
  pure ⟨law, holds, detail⟩

/-- Values shown one after another. -/
def shown (ws : List W) : String :=
  ", ".intercalate (ws.map Weight.debug)

/-- Values shown before two results that should be equal. -/
def different (ws : List W) {V : Type} [Weight V] (lhs rhs : V) : String :=
  shown ws ++ ": " ++ Weight.debug lhs ++ " != " ++ Weight.debug rhs

/-- Whether zero and one are members and no weight is none. -/
def identities (W : Type) [Weight W] : List (Traced Check) :=
  [plain .zeroMembership (Weight.isMember (Weight.zero : W)) fun _ =>
      Weight.debug (Weight.zero : W) ++ " is not a member",
    plain .oneMembership (Weight.isMember (Weight.one : W)) fun _ =>
      Weight.debug (Weight.one : W) ++ " is not a member",
    plain .noWeightNonMembership (!Weight.isMember (Weight.noWeight : W)) fun _ =>
      Weight.debug (Weight.noWeight : W) ++ " is a member"]

/-- The laws of `plus`, and that `times` is associative. -/
def commonLaws (checker : LawChecker) (a b c : W) : List (Traced Check) :=
  let approx := Weight.approxEq (W := W) checker.delta
  let sumRight := Weight.plus a (Weight.plus b c)
  let sumLeft := Weight.plus (Weight.plus a b) c
  let productRight := Weight.times a (Weight.times b c)
  let productLeft := Weight.times (Weight.times a b) c
  [plain .sampleMembership (Weight.isMember a) fun _ => shown [a],
    plain .plusAssociativity (approx sumRight sumLeft) fun _ =>
      different [a, b, c] sumRight sumLeft,
    plain .plusIdentity
      (Weight.plus a Weight.zero == a && Weight.plus Weight.zero a == a) fun _ => shown [a],
    plain .plusCommutativity (approx (Weight.plus a b) (Weight.plus b a)) fun _ => shown [a, b],
    plain .timesAssociativity (approx productRight productLeft) fun _ =>
      different [a, b, c] productRight productLeft]

/-- The laws of multiplying from the left. -/
def leftLaws (checker : LawChecker) (a b c : W) : List (Traced Check) :=
  let whole := Weight.times a (Weight.plus b c)
  let parts := Weight.plus (Weight.times a b) (Weight.times a c)
  [plain .leftTimesIdentity (Weight.times Weight.one a == a) fun _ => shown [a],
    plain .leftZeroAnnihilation (Weight.times Weight.zero a == Weight.zero) fun _ => shown [a],
    plain .leftDistributivity (Weight.approxEq checker.delta whole parts) fun _ =>
      different [a, b, c] whole parts]

/-- The laws of multiplying from the right. -/
def rightLaws (checker : LawChecker) (a b c : W) : List (Traced Check) :=
  let whole := Weight.times (Weight.plus a b) c
  let parts := Weight.plus (Weight.times a c) (Weight.times b c)
  [plain .rightTimesIdentity (Weight.times a Weight.one == a) fun _ => shown [a],
    plain .rightZeroAnnihilation (Weight.times a Weight.zero == Weight.zero) fun _ => shown [a],
    plain .rightDistributivity (Weight.approxEq checker.delta whole parts) fun _ =>
      different [a, b, c] whole parts]

/-- That a sum of equal terms is the term. -/
def idempotentLaws (a : W) : List (Traced Check) :=
  [plain .idempotence (Weight.plus a a == a) fun _ => shown [a]]

/-- That a sum is one of its terms. -/
def pathLaws (a b : W) : List (Traced Check) :=
  let sum := Weight.plus a b
  [plain .pathProperty (sum == a || sum == b) fun _ =>
    Weight.debug a ++ " + " ++ Weight.debug b ++ " = " ++ Weight.debug sum]

/-- That `times` is commutative. -/
def commutativeLaws (checker : LawChecker) (a b : W) : List (Traced Check) :=
  [plain .timesCommutativity
    (Weight.approxEq checker.delta (Weight.times a b) (Weight.times b a)) fun _ => shown [a, b]]

/-- The laws of the natural order. -/
def orderLaws (a b : W) : List (Traced Check) :=
  let order : NaturalOrder W := ⟨true⟩
  let expected := Weight.plus a b == a && !(a == b)
  [plain .naturalOrder (order.less a b == expected) fun _ =>
      Weight.debug a ++ " < " ++ Weight.debug b ++ " should be " ++ toString expected,
    plain .naturalOrderIrreflexivity (!order.less a a) fun _ => shown [a]]
    ++ if order.isTotal && !(a == b) then
      [plain .naturalOrderTotality (order.less a b != order.less b a) fun _ => shown [a, b]]
    else []

/-- That the power `n` is the one before times the weight. -/
def powerRecursion (checker : LawChecker) (a : W) (n : Nat) : Traced Check :=
  let lhs := Weight.power a n
  let rhs := Weight.times (Weight.power a (n - 1)) a
  plain .powerRecursion (Weight.approxEq checker.delta lhs rhs) fun _ =>
    Weight.debug a ++ "^" ++ toString n ++ ": " ++ Weight.debug lhs ++ " != " ++ Weight.debug rhs

/-- The laws of powers. -/
def powerLaws (checker : LawChecker) (a : W) : List (Traced Check) :=
  [plain .powerOfZero (Weight.power a 0 == Weight.one) fun _ => shown [a],
    plain .powerOfOne (Weight.approxEq checker.delta (Weight.power a 1) a) fun _ => shown [a],
    powerRecursion checker a 2, powerRecursion checker a 3, powerRecursion checker a 5]

/-- That dividing the product of two weights by one of them gives a member that multiplies back;
`back` multiplies a quotient with the divisor and shows how. -/
def divisionLaws (checker : LawChecker) (side : Side) (membership law : Law) (a b divisor : W)
    (back : W → W × String) : List (Traced Check) :=
  let product := Weight.times a b
  let quotient := Weight.divide side product divisor
  let d := quotient.value
  [do
      let d ← quotient
      plain membership (Weight.isMember d) fun _ =>
        "(" ++ Weight.debug a ++ " * " ++ Weight.debug b ++ ") / " ++ Weight.debug divisor ++ " = "
          ++ Weight.debug d,
    plain law (Weight.approxEq checker.delta (back d).1 product) fun _ =>
      (back d).2 ++ " != " ++ Weight.debug product]

/-- Division from the left by a weight other than zero. -/
def leftDivisionLaws (checker : LawChecker) (a b : W) : List (Traced Check) :=
  if a == Weight.zero then []
  else divisionLaws checker .left .leftDivisionMembership .leftDivision a b a fun d =>
    (Weight.times a d, Weight.debug a ++ " * " ++ Weight.debug d)

/-- Division from the right by a weight other than zero. -/
def rightDivisionLaws (checker : LawChecker) (a b : W) : List (Traced Check) :=
  if b == Weight.zero then []
  else divisionLaws checker .right .rightDivisionMembership .rightDivision a b b fun d =>
    (Weight.times d b, Weight.debug d ++ " * " ++ Weight.debug b)

/-- Division from either side by a weight other than zero. -/
def anyDivisionLaws (checker : LawChecker) (a b : W) : List (Traced Check) :=
  if a == Weight.zero then []
  else divisionLaws checker .any .divisionMembership .commutativeDivision a b a fun d =>
    (Weight.times d a, Weight.debug d ++ " * " ++ Weight.debug a)

/-- The laws of reversal. -/
def reverseLaws [Weight R] [Reversible W R] (checker : LawChecker) (a b : W) :
    List (Traced Check) :=
  let reverse (w : W) : R := Reversible.reverse w
  let sum := reverse (Weight.plus a b)
  let sumOfReverses := Weight.plus (reverse a) (reverse b)
  let product := reverse (Weight.times a b)
  let productOfReverses := Weight.times (reverse b) (reverse a)
  [plain .reverseInvolution (Reversible.restore (reverse a) == a) fun _ => shown [a],
    plain .reverseOfPlus (Weight.approxEq checker.delta sum sumOfReverses) fun _ =>
      different [a, b] sum sumOfReverses,
    plain .reverseOfTimes (Weight.approxEq checker.delta product productOfReverses) fun _ =>
      different [a, b] product productOfReverses]

/-- The laws of representatives. -/
def quantizeLaws (checker : LawChecker) (a : W) : List (Traced Check) :=
  let q := Weight.quantize checker.delta a
  let detail : Unit → String := fun _ => Weight.debug a ++ " -> " ++ Weight.debug q
  [plain .quantizeIdempotence (Weight.quantize checker.delta q == q) detail,
    plain .quantizeTolerance (Weight.approxEq checker.delta q a) detail]

/-- That a copy of a weight hashes like the weight. -/
def hashLaws (a : W) : List (Traced Check) :=
  let copy := Weight.clone a
  [plain .hashConsistency (Weight.hashValue copy == Weight.hashValue a) fun _ => shown [a]]

/-- That the text of a weight reads back as the weight. -/
def textLaws (checker : LawChecker) (a : W) : List (Traced Check) :=
  let text := Textual.text checker.delimiters a
  let start := Weight.debug a ++ " -> " ++ Text.quoted (String.ofList text)
  [do
    match ← Textual.read checker.delimiters text with
    | .ok back =>
      plain .textRoundTrip (Weight.approxEq checker.delta back a) fun _ =>
        start ++ " -> " ++ Weight.debug back
    | .error e => plain .textRoundTrip false fun _ => start ++ ": " ++ e.message]

/-- The checks of a list that apply if the type declares a property. -/
def ifDeclared (W : Type) [Weight W] (p : Properties) (checks : List (Traced Check)) :
    List (Traced Check) :=
  if (Weight.properties W).contains p then checks else []

/-- All the checks on three samples. -/
def round [Weight R] [Reversible W R] (checker : LawChecker) (a b c : W) : List (Traced Check) :=
  commonLaws checker a b c
    ++ ifDeclared W .leftSemiring (leftLaws checker a b c)
    ++ ifDeclared W .rightSemiring (rightLaws checker a b c)
    ++ ifDeclared W .idempotent (idempotentLaws a)
    ++ ifDeclared W .path (pathLaws a b)
    ++ ifDeclared W .commutative (commutativeLaws checker a b)
    ++ ifDeclared W .idempotent (orderLaws a b)
    ++ powerLaws checker a
    ++ ifDeclared W .leftSemiring (leftDivisionLaws checker a b)
    ++ ifDeclared W .rightSemiring (rightDivisionLaws checker a b)
    ++ ifDeclared W .commutative (anyDivisionLaws checker a b)
    ++ reverseLaws checker a b
    ++ quantizeLaws checker a
    ++ hashLaws a
    ++ textLaws checker a

/-- Rounds of checks on three fresh samples each, up to the first violation. -/
def rounds [Weight R] [Reversible W R] {σ : Type} (checker : LawChecker)
    (draw : σ → Traced (W × σ)) : (rounds : Nat) → σ → Traced (Except Violation Unit)
  | 0, _ => pure (.ok ())
  | more + 1, source => do
    let (a, source) ← draw source
    let (b, source) ← draw source
    let (c, source) ← draw source
    Traced.report (.testing (Weight.debug a) (Weight.debug b) (Weight.debug c))
    match ← Check.firstFailure (round checker a b c) with
    | .ok () => rounds checker draw more source
    | .error v => pure (.error v)

/-- Checks the identities and then the given number of rounds. -/
def run [Weight R] [Reversible W R] {σ : Type} (checker : LawChecker)
    (draw : σ → Traced (W × σ)) (iterations : Nat) (source : σ) :
    Traced (Except Violation Unit) := do
  match ← Check.firstFailure (identities W) with
  | .ok () => rounds checker draw iterations source
  | .error v => pure (.error v)

/-- Draws the given samples in turn, over and over; without samples, the one. -/
def cycle (samples : Array W) (position : Nat) : Traced (W × Nat) :=
  pure (samples.getD (position % samples.size) Weight.one, position + 1)

end LawChecker
end WeightedTransducer

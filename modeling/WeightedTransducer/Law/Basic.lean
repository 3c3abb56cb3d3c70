/-!
# The laws of a weight type

`Law` lists what the law checker checks, with the names under which it reports them.
-/

namespace WeightedTransducer

/-- A law that weights are checked against. -/
inductive Law where
  | zeroMembership
  | oneMembership
  | noWeightNonMembership
  | sampleMembership
  | plusAssociativity
  | plusIdentity
  | plusCommutativity
  | timesAssociativity
  | leftTimesIdentity
  | leftZeroAnnihilation
  | leftDistributivity
  | rightTimesIdentity
  | rightZeroAnnihilation
  | rightDistributivity
  | idempotence
  | pathProperty
  | timesCommutativity
  | naturalOrder
  | naturalOrderIrreflexivity
  | naturalOrderTotality
  | powerOfZero
  | powerOfOne
  | powerRecursion
  | leftDivisionMembership
  | leftDivision
  | rightDivisionMembership
  | rightDivision
  | divisionMembership
  | commutativeDivision
  | reverseInvolution
  | reverseOfPlus
  | reverseOfTimes
  | quantizeIdempotence
  | quantizeTolerance
  | hashConsistency
  | textRoundTrip
  deriving DecidableEq, Repr

/-- The name of a law. -/
def Law.name : Law → String
  | zeroMembership => "zero membership"
  | oneMembership => "one membership"
  | noWeightNonMembership => "no_weight non-membership"
  | sampleMembership => "sample membership"
  | plusAssociativity => "plus associativity"
  | plusIdentity => "plus identity"
  | plusCommutativity => "plus commutativity"
  | timesAssociativity => "times associativity"
  | leftTimesIdentity => "left times identity"
  | leftZeroAnnihilation => "left zero annihilation"
  | leftDistributivity => "left distributivity"
  | rightTimesIdentity => "right times identity"
  | rightZeroAnnihilation => "right zero annihilation"
  | rightDistributivity => "right distributivity"
  | idempotence => "idempotence"
  | pathProperty => "path property"
  | timesCommutativity => "times commutativity"
  | naturalOrder => "natural order"
  | naturalOrderIrreflexivity => "natural order irreflexivity"
  | naturalOrderTotality => "natural order totality"
  | powerOfZero => "power of zero"
  | powerOfOne => "power of one"
  | powerRecursion => "power recursion"
  | leftDivisionMembership => "left division membership"
  | leftDivision => "left division"
  | rightDivisionMembership => "right division membership"
  | rightDivision => "right division"
  | divisionMembership => "division membership"
  | commutativeDivision => "commutative division"
  | reverseInvolution => "reverse involution"
  | reverseOfPlus => "reverse of plus"
  | reverseOfTimes => "reverse of times"
  | quantizeIdempotence => "quantize idempotence"
  | quantizeTolerance => "quantize tolerance"
  | hashConsistency => "hash consistency"
  | textRoundTrip => "text round-trip"

/-- A law that failed on given values. -/
structure Violation where
  /-- The law. -/
  law : Law
  /-- The values, in words. -/
  detail : String
  deriving DecidableEq, Repr

/-- The words for a violation. -/
def Violation.message (v : Violation) : String :=
  v.law.name ++ " violated: " ++ v.detail

end WeightedTransducer

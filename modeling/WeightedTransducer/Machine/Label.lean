/-!
# Arc labels

A label is a number of 32 bits; zero is the empty label.
-/

namespace WeightedTransducer

/-- The symbol that an arc reads or writes. -/
abbrev Label := UInt32

/-- The label that reads or writes nothing. -/
def epsilon : Label := 0

end WeightedTransducer

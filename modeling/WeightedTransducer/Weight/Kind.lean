import WeightedTransducer.Weight.Boolean
import WeightedTransducer.Weight.Finite
import WeightedTransducer.Weight.Log
import WeightedTransducer.Weight.Product
import WeightedTransducer.Weight.Tropical

/-!
# The weight types by name

A `WeightKind` describes a weight type built from the ones of this library, and
`WeightKind.Carrier` is that type.  Every kind is a weight type with a generator, and is its own
type of reversed weights.  `WeightKind.convert` converts between two kinds.  The functions of
`Elementary` that logarithmic costs calculate with are the same throughout a kind.
-/

namespace WeightedTransducer

/-- A description of a weight type. -/
inductive WeightKind where
  /-- Costs of which the least counts. -/
  | tropical
  /-- Costs that are negative logarithms. -/
  | log
  /-- Truth values. -/
  | boolean
  /-- The values of a table. -/
  | finite (table : FiniteTable)
  /-- Pairs. -/
  | product (first second : WeightKind)
  deriving DecidableEq, Inhabited

namespace WeightKind
variable [Elementary]

/-- The values of the type described. -/
def Carrier : WeightKind → Type
  | tropical => Tropical
  | log => Log
  | boolean => Boolean
  | finite table => FiniteWeight table
  | product first second => Product first.Carrier second.Carrier

instance instWeight : (k : WeightKind) → Weight k.Carrier
  | tropical => inferInstanceAs (Weight Tropical)
  | log => inferInstanceAs (Weight Log)
  | boolean => inferInstanceAs (Weight Boolean)
  | finite table => inferInstanceAs (Weight (FiniteWeight table))
  | product first second =>
    letI := instWeight first
    letI := instWeight second
    inferInstanceAs (Weight (Product first.Carrier second.Carrier))

instance instReversible : (k : WeightKind) → Reversible k.Carrier k.Carrier
  | tropical => inferInstanceAs (Reversible Tropical Tropical)
  | log => inferInstanceAs (Reversible Log Log)
  | boolean => inferInstanceAs (Reversible Boolean Boolean)
  | finite table => inferInstanceAs (Reversible (FiniteWeight table) (FiniteWeight table))
  | product first second =>
    letI := instReversible first
    letI := instReversible second
    inferInstanceAs
      (Reversible (Product first.Carrier second.Carrier) (Product first.Carrier second.Carrier))

instance instRandomWeight : (k : WeightKind) → RandomWeight k.Carrier
  | tropical => inferInstanceAs (RandomWeight Tropical)
  | log => inferInstanceAs (RandomWeight Log)
  | boolean => inferInstanceAs (RandomWeight Boolean)
  | finite table => inferInstanceAs (RandomWeight (FiniteWeight table))
  | product first second =>
    letI := instRandomWeight first
    letI := instRandomWeight second
    inferInstanceAs (RandomWeight (Product first.Carrier second.Carrier))

/-- A weight of another kind with the same meaning.  A kind converts to itself by doing nothing,
and costs convert by their value; any other conversion is reported and gives no weight. -/
def convert (source target : WeightKind) (w : source.Carrier) : Traced target.Carrier :=
  if h : source = target then pure (h ▸ w)
  else match source, target, w with
    | tropical, log, w => pure (⟨Tropical.value w⟩ : Log)
    | log, tropical, w => pure (⟨Log.value w⟩ : Tropical)
    | _, _, _ => do
      Traced.report
        (.noConversion (Weight.typeName source.Carrier) (Weight.typeName target.Carrier))
      pure Weight.noWeight

end WeightKind
end WeightedTransducer

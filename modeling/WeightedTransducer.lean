import WeightedTransducer.Codex.InPlace
import WeightedTransducer.ElementKind
import WeightedTransducer.Law.Checker
import WeightedTransducer.Storage.FileTree
import WeightedTransducer.Proofs.Codex.Failure
import WeightedTransducer.Proofs.Codex.Obtained
import WeightedTransducer.Proofs.Codex.Numbering
import WeightedTransducer.Proofs.Composite.Depth
import WeightedTransducer.Proofs.Codex.Normal
import WeightedTransducer.Proofs.Machine.Paths
import WeightedTransducer.Proofs.Codex.Folding
import WeightedTransducer.Proofs.Codex.Reuse
import WeightedTransducer.Proofs.Composite.Unparenthesized
import WeightedTransducer.Proofs.Composite.Stream
import WeightedTransducer.Proofs.Composite.Fronts
import WeightedTransducer.Proofs.Codex.Truncated
import WeightedTransducer.Proofs.Codex.TypeNames
import WeightedTransducer.Proofs.Codex.EncodeInPlace
import WeightedTransducer.Proofs.Machine.Operations
import WeightedTransducer.Proofs.Weight.Contract
import WeightedTransducer.Proofs.Law.Checking
import WeightedTransducer.Proofs.Weight.Closure
import WeightedTransducer.Proofs.Weight.NaturalOrder
import WeightedTransducer.Proofs.Weight.KindCosts
import WeightedTransducer.Proofs.Codex.Encoded
import WeightedTransducer.Proofs.Codex.Tails
import WeightedTransducer.Proofs.Weight.Pareto
import WeightedTransducer.Proofs.Number.Whole
import WeightedTransducer.Proofs.Weight.Sampling
import WeightedTransducer.Proofs.Number.Rounding
import WeightedTransducer.Proofs.Weight.TropicalLaws
import WeightedTransducer.Proofs.Number.Interchange
import WeightedTransducer.Proofs.Weight.Hashing
import WeightedTransducer.Proofs.Composite.Failing
import WeightedTransducer.Proofs.Composite.Limited
import WeightedTransducer.Proofs.Weight.Power
